import GraphQLClient.Http.Exchange
import GraphQLClient.Proofs.Outcomes
import GraphQLClient.Proofs.WordsAndNumerals

/-!
# Addresses

An address that is read has a path that begins at its first slash and a port behind the last colon
in front of that, and from its written form it is read again. The host is what is left in front of
them, which may be nothing.
-/
namespace GraphQLClient.Http

open Outcome

section Splitting

variable {c : Char} {cs front back : List Char}

/-- Read from its end, a text comes to its last `c` first. -/
theorem splitLast?_append (front : List Char) (hback : c ∉ back) :
    splitLast? c (front ++ c :: back) = some (front, back) := by
  have hreverse : (front ++ c :: back).reverse = back.reverse ++ c :: front.reverse := by simp
  have hall : ∀ d ∈ back.reverse, (d != c) = true := by
    intro d hd
    exact bne_iff_ne.mpr fun heq => hback (List.mem_reverse.mp (heq ▸ hd))
  rw [splitLast?, if_pos (List.mem_append_right _ List.mem_cons_self), hreverse,
    List.dropWhile_append_of_pos hall, List.takeWhile_append_of_pos hall]
  simp

theorem splitLast?_eq_none_iff : splitLast? c cs = none ↔ c ∉ cs := by
  unfold splitLast?
  split_ifs with hmem
  · exact iff_of_false nofun (not_not_intro hmem)
  · exact iff_of_true rfl hmem

theorem splitLast?_eq_some_iff :
    splitLast? c cs = some (front, back) ↔ cs = front ++ c :: back ∧ c ∉ back := by
  constructor
  · intro h
    have hmem : c ∈ cs := by
      by_contra hnot
      cases (splitLast?_eq_none_iff.mpr hnot).symm.trans h
    obtain ⟨last, first, hsplit, hlast⟩ := List.eq_append_cons_of_mem (List.mem_reverse.mpr hmem)
    have hcs : cs = first.reverse ++ c :: last.reverse := by
      rw [← List.reverse_reverse cs, hsplit]
      simp
    have hback : c ∉ last.reverse := mt List.mem_reverse.mp hlast
    rw [hcs, splitLast?_append _ hback] at h
    cases h
    exact ⟨hcs, hback⟩
  · rintro ⟨rfl, hback⟩
    exact splitLast?_append front hback

end Splitting

inductive WritesAuthority (host : List Char) : Nat → List Char → Prop where
  | plain (hhost : ':' ∉ host) : WritesAuthority host 80 host
  | ported {port : Nat} {digits : List Char} (hdigits : ':' ∉ digits)
      (hport : Text.numeral? 10 portLimit digits = some port) :
      WritesAuthority host port (host ++ ':' :: digits)

/-- An address as it stands behind the scheme. The path may be missing if something else is
there. -/
inductive Url.Stands (url : Url) : List Char → Prop where
  | root {authority : List Char} (hauthority : WritesAuthority url.host url.port authority)
      (hslash : '/' ∉ authority) (hne : authority ≠ []) (hpath : url.path = ['/']) :
      url.Stands authority
  | path {authority : List Char} (hauthority : WritesAuthority url.host url.port authority)
      (hslash : '/' ∉ authority) (hpath : url.path.head? = some '/') :
      url.Stands (authority ++ url.path)

inductive BehindScheme : List Char → List Char → Prop where
  | given (rest : List Char) : BehindScheme ("http://".toList ++ rest) rest
  | missing {rest : List Char} (hplain : ¬ "http://".toList <+: rest)
      (hencrypted : ¬ "https://".toList <+: rest) :
      BehindScheme rest rest

section Reading

variable {url : Url} {cs rest authority path : List Char}

theorem readAuthority_eq_ok_iff :
    readAuthority authority path = .ok url ↔
      url.path = path ∧ WritesAuthority url.host url.port authority := by
  unfold readAuthority
  constructor
  · intro h
    cases hsplit : splitLast? ':' authority with
    | none =>
      rw [hsplit] at h
      cases h
      exact ⟨rfl, .plain (splitLast?_eq_none_iff.mp hsplit)⟩
    | some pair =>
      obtain ⟨host, digits⟩ := pair
      obtain ⟨rfl, hdigits⟩ := splitLast?_eq_some_iff.mp hsplit
      rw [hsplit] at h
      cases hport : Text.numeral? 10 portLimit digits with
      | none =>
        simp only [hport] at h
        cases h
      | some port =>
        simp only [hport] at h
        cases h
        exact ⟨rfl, .ported hdigits hport⟩
  · rintro ⟨rfl, hauthority⟩
    obtain ⟨host, port, path⟩ := url
    cases hauthority with
    | plain hhost => rw [splitLast?_eq_none_iff.mpr hhost]
    | ported hdigits hport => simp only [splitLast?_append host hdigits, hport]

def readBehindScheme (rest : List Char) : Except UrlFault Url :=
  if rest.isEmpty then .error .missingHost
  else
    match rest.dropWhile (· != '/') with
    | [] => readAuthority (rest.takeWhile (· != '/')) ['/']
    | path => readAuthority (rest.takeWhile (· != '/')) path

theorem takeWhile_slash (hslash : '/' ∉ authority) (hpath : path = [] ∨ path.head? = some '/') :
    (authority ++ path).takeWhile (· != '/') = authority ∧
    (authority ++ path).dropWhile (· != '/') = path := by
  have hall : ∀ c ∈ authority, (c != '/') = true := by
    intro c hc
    exact bne_iff_ne.mpr fun heq => hslash (heq ▸ hc)
  rw [List.takeWhile_append_of_pos hall, List.dropWhile_append_of_pos hall]
  rcases hpath with rfl | hpath
  · simp
  · obtain ⟨more, rfl⟩ := List.head?_eq_some_iff.mp hpath
    simp

theorem exists_slash (rest : List Char) :
    ∃ authority path, rest = authority ++ path ∧ '/' ∉ authority ∧
    (path = [] ∨ path.head? = some '/') := by
  by_cases hmem : '/' ∈ rest
  · obtain ⟨authority, more, rfl, hslash⟩ := List.eq_append_cons_of_mem hmem
    exact ⟨authority, '/' :: more, rfl, hslash, Or.inr rfl⟩
  · exact ⟨rest, [], (List.append_nil rest).symm, hmem, Or.inl rfl⟩

theorem readBehindScheme_root (hslash : '/' ∉ authority) (hne : authority ≠ []) :
    readBehindScheme authority = readAuthority authority ['/'] := by
  have hnone : ([] : List Char) = [] ∨ ([] : List Char).head? = some '/' := Or.inl rfl
  obtain ⟨htake, hdrop⟩ := takeWhile_slash hslash hnone
  rw [List.append_nil] at htake hdrop
  simp only [readBehindScheme, htake, hdrop, List.isEmpty_eq_false_iff.mpr hne,
    Bool.false_eq_true, if_false]

theorem readBehindScheme_path (hslash : '/' ∉ authority) (hpath : path.head? = some '/') :
    readBehindScheme (authority ++ path) = readAuthority authority path := by
  obtain ⟨htake, hdrop⟩ := takeWhile_slash hslash (Or.inr hpath)
  obtain ⟨more, rfl⟩ := List.head?_eq_some_iff.mp hpath
  have hne : (authority ++ '/' :: more).isEmpty = false := by simp
  simp only [readBehindScheme, htake, hdrop, hne, Bool.false_eq_true, if_false]

theorem readBehindScheme_eq_ok_iff : readBehindScheme rest = .ok url ↔ url.Stands rest := by
  constructor
  · intro h
    obtain ⟨authority, path, rfl, hslash, rfl | hpath⟩ := exists_slash rest
    · rw [List.append_nil] at h ⊢
      by_cases hne : authority = []
      · rw [hne] at h
        cases h
      · rw [readBehindScheme_root hslash hne, readAuthority_eq_ok_iff] at h
        exact .root h.2 hslash hne h.1
    · rw [readBehindScheme_path hslash hpath, readAuthority_eq_ok_iff] at h
      obtain ⟨rfl, hauthority⟩ := h
      exact .path hauthority hslash hpath
  · intro h
    cases h with
    | root hauthority hslash hne hpath =>
      rw [readBehindScheme_root hslash hne, readAuthority_eq_ok_iff]
      exact ⟨hpath, hauthority⟩
    | path hauthority hslash hpath =>
      rw [readBehindScheme_path hslash hpath, readAuthority_eq_ok_iff]
      exact ⟨rfl, hauthority⟩

theorem afterStart?_eq_none {start : List Char} (h : ¬ start <+: cs) :
    afterStart? start cs = none :=
  if_neg (mt List.isPrefixOf_iff_prefix.mp h)

@[simp] theorem afterStart?_append (start rest : List Char) :
    afterStart? start (start ++ rest) = some rest := by
  rw [afterStart?, if_pos (List.isPrefixOf_iff_prefix.mpr (List.prefix_append start rest)),
    List.drop_left]

/-- The two schemes differ in their fifth character. -/
theorem BehindScheme.not_encrypted (h : BehindScheme cs rest) : ¬ "https://".toList <+: cs := by
  cases h with
  | given =>
    rintro ⟨more, hmore⟩
    have hfifth := congrArg (·[4]?) hmore
    revert hfifth
    simp
  | missing hplain hencrypted => exact hencrypted

theorem behindScheme_or_encrypted (cs : List Char) :
    "https://".toList <+: cs ∨ ∃ rest, BehindScheme cs rest := by
  by_cases hencrypted : "https://".toList <+: cs
  · exact Or.inl hencrypted
  by_cases hplain : "http://".toList <+: cs
  · obtain ⟨rest, rfl⟩ := hplain
    exact Or.inr ⟨rest, .given rest⟩
  · exact Or.inr ⟨cs, .missing hplain hencrypted⟩

theorem parseUrlList_encrypted (h : "https://".toList <+: Text.trim cs) :
    parseUrlList cs = .error .encrypted := by
  obtain ⟨rest, hrest⟩ := h
  rw [parseUrlList, ← hrest]
  exact if_pos (by rw [afterStart?_append]; rfl)

theorem parseUrlList_behind (h : BehindScheme (Text.trim cs) rest) :
    parseUrlList cs = readBehindScheme rest := by
  have hbehind : (afterStart? "http://".toList (Text.trim cs)).getD (Text.trim cs) = rest := by
    generalize Text.trim cs = url at h
    cases h with
    | given => rw [afterStart?_append, Option.getD_some]
    | missing hplain _ => rw [afterStart?_eq_none hplain, Option.getD_none]
  simp only [parseUrlList, afterStart?_eq_none h.not_encrypted, hbehind, Option.isSome_none,
    Bool.false_eq_true, if_false]
  rfl

/-- What is accepted is an address behind a scheme, or without one. -/
theorem parseUrlList_eq_ok_iff :
    parseUrlList cs = .ok url ↔ ∃ rest, BehindScheme (Text.trim cs) rest ∧ url.Stands rest := by
  constructor
  · intro h
    rcases behindScheme_or_encrypted (Text.trim cs) with hencrypted | ⟨rest, hrest⟩
    · cases (parseUrlList_encrypted hencrypted).symm.trans h
    · rw [parseUrlList_behind hrest, readBehindScheme_eq_ok_iff] at h
      exact ⟨rest, hrest, h⟩
  · rintro ⟨rest, hrest, hstands⟩
    rw [parseUrlList_behind hrest, readBehindScheme_eq_ok_iff]
    exact hstands

theorem parseUrl_eq_ok_iff {text : String} :
    parseUrl text = .ok url ↔
      ∃ rest, BehindScheme (Text.trim text.toList) rest ∧ url.Stands rest := by
  rw [parseUrl, mapError_eq_ok, parseUrlList_eq_ok_iff]

end Reading

section Parts

variable {url : Url} {cs rest authority host path digits : List Char} {port : Nat}

theorem WritesAuthority.port_le (h : WritesAuthority host port authority) : port ≤ portLimit := by
  cases h with
  | plain => decide
  | ported hdigits hport => exact Text.le_of_numeral? hport

theorem WritesAuthority.host_subset (h : WritesAuthority host port authority) :
    host ⊆ authority := by
  cases h with
  | plain => exact List.Subset.refl _
  | ported => exact List.subset_append_left _ _

theorem WritesAuthority.host_eq_nil_iff (h : WritesAuthority host port authority) :
    host = [] ↔ authority = [] ∨ ∃ digits, authority = ':' :: digits ∧ ':' ∉ digits := by
  cases h with
  | plain hhost =>
    refine (or_iff_left ?_).symm
    rintro ⟨digits, rfl, -⟩
    exact hhost List.mem_cons_self
  | @ported _ digits hdigits hport =>
    constructor
    · rintro rfl
      exact Or.inr ⟨digits, rfl, hdigits⟩
    · rintro (hnil | ⟨others, hothers, hcolon⟩)
      · exact absurd hnil (by simp)
      · have hsplit := splitLast?_append [] hcolon
        rw [List.nil_append, ← hothers, splitLast?_append host hdigits] at hsplit
        cases hsplit
        rfl

theorem Url.Stands.parts (h : url.Stands rest) :
    ∃ authority path, rest = authority ++ path ∧ '/' ∉ authority ∧
    (path = [] ∨ path.head? = some '/') ∧ WritesAuthority url.host url.port authority := by
  cases h with
  | root hauthority hslash hne hpath =>
    exact ⟨_, [], (List.append_nil _).symm, hslash, Or.inl rfl, hauthority⟩
  | path hauthority hslash hpath => exact ⟨_, _, rfl, hslash, Or.inr hpath, hauthority⟩

theorem Url.Stands.path_head (h : url.Stands rest) : url.path.head? = some '/' := by
  cases h with
  | root hauthority hslash hne hpath =>
    rw [hpath]
    rfl
  | path hauthority hslash hpath => exact hpath

theorem BehindScheme.unique {other : List Char} (h : BehindScheme cs rest)
    (hother : BehindScheme cs other) :
    rest = other := by
  cases h with
  | given =>
    generalize hcs : "http://".toList ++ rest = cs at hother
    cases hother with
    | given => exact List.append_cancel_left hcs
    | missing hplain => exact absurd ⟨rest, hcs⟩ hplain
  | missing hplain =>
    cases hother with
    | given => exact absurd (List.prefix_append _ _) hplain
    | missing => rfl

theorem BehindScheme.suffix (h : BehindScheme cs rest) : rest <:+ cs := by
  cases h with
  | given => exact List.suffix_append _ _
  | missing => exact List.suffix_refl _

/-- Behind the scheme, no host stands in front of the port and the path. -/
def LacksHost (cs : List Char) : Prop :=
  ∃ authority path, BehindScheme (Text.trim cs) (authority ++ path) ∧ '/' ∉ authority ∧
    (path = [] ∨ path.head? = some '/') ∧
      (authority = [] ∨ ∃ digits, authority = ':' :: digits ∧ ':' ∉ digits)

theorem host_eq_nil_iff (hbehind : BehindScheme (Text.trim cs) rest) (h : url.Stands rest) :
    url.host = [] ↔ LacksHost cs := by
  obtain ⟨authority, path, rfl, hslash, hpath, hauthority⟩ := h.parts
  rw [hauthority.host_eq_nil_iff]
  constructor
  · intro hnone
    exact ⟨authority, path, hbehind, hslash, hpath, hnone⟩
  · rintro ⟨other, otherPath, hother, hotherSlash, hotherPath, hnone⟩
    have hsame := hbehind.unique hother
    have htake := (takeWhile_slash hslash hpath).1
    rw [hsame, (takeWhile_slash hotherSlash hotherPath).1] at htake
    rwa [← htake]

def Url.text (url : Url) : List Char :=
  "http://".toList ++ (url.host ++ ':' :: Text.digitsOf 10 url.port ++ url.path)

/-- The path of a trimmed text does not end with a blank. -/
theorem Url.Stands.path_last (h : url.Stands rest) (hbehind : BehindScheme (Text.trim cs) rest) :
    ∀ c ∈ url.path.getLast?, Text.isBlank c = false := by
  intro c hc
  cases h with
  | root hauthority hslash hne hpath =>
    rw [hpath] at hc
    cases hc
    decide
  | path hauthority hslash hpath =>
    obtain ⟨front, hfront⟩ := hbehind.suffix
    have hlast : (Text.trim cs).getLast? = some c := by
      rw [← hfront, ← List.append_assoc, List.getLast?_append, hc]
      rfl
    exact Text.getLast?_trim hlast

/-- A path keeps what stands in front of it from being trimmed. -/
theorem trim_scheme (hpath : path.head? = some '/')
    (hlast : ∀ c ∈ path.getLast?, Text.isBlank c = false) :
    Text.trim ("http://".toList ++ (authority ++ path)) =
      "http://".toList ++ (authority ++ path) := by
  obtain ⟨more, rfl⟩ := List.head?_eq_some_iff.mp hpath
  have hend : ("http://".toList ++ (authority ++ '/' :: more)).getLast? =
      ('/' :: more).getLast? := by
    rw [← List.append_assoc, List.getLast?_append, List.getLast?_cons]
    rfl
  rw [← hend] at hlast
  exact Text.trim_eq_self (by decide) hlast

theorem parseUrl_stands (h : url.Stands (authority ++ path)) (hpath : path.head? = some '/')
    (hlast : ∀ c ∈ path.getLast?, Text.isBlank c = false) :
    parseUrl (String.ofList ("http://".toList ++ (authority ++ path))) = .ok url := by
  rw [parseUrl_eq_ok_iff, String.toList_ofList, trim_scheme hpath hlast]
  exact ⟨_, .given _, h⟩

theorem parseUrl_text (hhost : '/' ∉ url.host) (hport : url.port ≤ portLimit)
    (hpath : url.path.head? = some '/') (hlast : ∀ c ∈ url.path.getLast?, Text.isBlank c = false) :
    parseUrl (String.ofList url.text) = .ok url := by
  have hcolon : ':' ∉ Text.digitsOf 10 url.port :=
    Text.not_mem_digitsOf (by decide) (by decide) (by decide)
  have hslash : '/' ∉ Text.digitsOf 10 url.port :=
    Text.not_mem_digitsOf (by decide) (by decide) (by decide)
  have hauthority : WritesAuthority url.host url.port
      (url.host ++ ':' :: Text.digitsOf 10 url.port) :=
    .ported hcolon (Text.numeral?_digitsOf (by decide) (by decide) hport)
  refine parseUrl_stands (.path hauthority ?_ hpath) hpath hlast
  simp [hhost, hslash]

end Parts

/-- An address that is read has a path from its first slash on, no slash in its host and a port of
16 bits, and in full it is read as itself. Its host is empty exactly when the text has nothing in
front of the port and the path. Every host without slash and colon is read, with every port and
every path that begins with a slash and does not end with a blank, and without a port it has the
port 80. -/
theorem accepted_urls_formed (text : String) (url : Url) :
    (parseUrl text = .ok url →
      (url.host = [] ↔ LacksHost text.toList) ∧ '/' ∉ url.host ∧ url.path.head? = some '/' ∧
      url.port ≤ portLimit ∧ parseUrl (String.ofList url.text) = .ok url) ∧
    ('/' ∉ url.host → ':' ∉ url.host → url.port ≤ portLimit → url.path.head? = some '/' →
      (∀ c ∈ url.path.getLast?, Text.isBlank c = false) →
        parseUrl (String.ofList url.text) = .ok url ∧
        parseUrl (String.ofList ("http://".toList ++ (url.host ++ url.path))) =
          .ok { url with port := 80 }) := by
  constructor
  · intro h
    obtain ⟨rest, hbehind, hstands⟩ := parseUrl_eq_ok_iff.mp h
    obtain ⟨authority, path, -, hslash, -, hauthority⟩ := hstands.parts
    have hhost : '/' ∉ url.host := fun hmem => hslash (hauthority.host_subset hmem)
    exact ⟨host_eq_nil_iff hbehind hstands, hhost, hstands.path_head, hauthority.port_le,
      parseUrl_text hhost hauthority.port_le hstands.path_head (hstands.path_last hbehind)⟩
  · intro hslash hcolon hport hpath hlast
    have hplain : Url.Stands { url with port := 80 } (url.host ++ url.path) :=
      .path (.plain hcolon) hslash hpath
    exact ⟨parseUrl_text hslash hport hpath hlast, parseUrl_stands hplain hpath hlast⟩

/-- Without its scheme, between blanks, with a zero in front of the port, a colon in the host and a
blank in the path. -/
def spacedText : String := "\tlocal:host:04000/graph ql\n"

def spacedUrl : Url := ⟨"local:host".toList, 4000, "/graph ql".toList⟩

def accentedUrl : Url := ⟨"é.com".toList, 65535, ['/']⟩

theorem spaced_url_formed :
    parseUrl spacedText = .ok spacedUrl ∧ (spacedUrl.host = [] ↔ LacksHost spacedText.toList) ∧
      parseUrl "http://local:host:4000/graph ql" = .ok spacedUrl ∧
      parseUrl "http://é.com:65535/" = .ok accentedUrl ∧
      parseUrl "http://é.com/" = .ok { accentedUrl with port := 80 } := by
  have hurl : parseUrl spacedText = .ok spacedUrl := rfl
  obtain ⟨hhost, -, -, -, hagain⟩ := (accepted_urls_formed spacedText spacedUrl).1 hurl
  have hlast : ∀ c ∈ accentedUrl.path.getLast?, Text.isBlank c = false := by
    intro c hc
    cases hc
    decide
  obtain ⟨hport, hplain⟩ :=
    (accepted_urls_formed "" accentedUrl).2 (by decide) (by decide) (by decide) rfl hlast
  have htext : String.ofList spacedUrl.text = "http://local:host:4000/graph ql" := by decide +kernel
  have hfull : String.ofList accentedUrl.text = "http://é.com:65535/" := by decide +kernel
  have hshort : String.ofList ("http://".toList ++ (accentedUrl.host ++ accentedUrl.path)) =
      "http://é.com/" := by
    decide +kernel
  rw [htext] at hagain
  rw [hfull] at hport
  rw [hshort] at hplain
  exact ⟨hurl, hhost, hagain, hport, hplain⟩

/-- A port or a path is taken for an address of its own, although an address of nothing at all is
refused. -/
theorem missing_host_accepted :
    parseUrl "http://:80/" = .ok ⟨[], 80, ['/']⟩ ∧ parseUrl "http:///graphql" =
      .ok ⟨[], 80, "/graphql".toList⟩ ∧
      parseUrl "http://" = .error (.new .invalidUrl "Missing host") := by
  exact ⟨rfl, rfl, rfl⟩

end GraphQLClient.Http
