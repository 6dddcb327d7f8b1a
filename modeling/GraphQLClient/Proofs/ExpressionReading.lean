import GraphQLClient.Proofs.TypeExpressions
import GraphQLClient.Schema.Resolution

/-!
# Expressions are read exactly

The expressions of the grammar are those that are read, and each is read as what prints as it. Any
other text is refused at the end of its longest beginning of an expression: the error is where that
beginning stops, and covers the one character behind it.
-/
namespace GraphQLClient

namespace Text

@[simp] theorem splitBytes_append (front back : List Char) :
    splitBytes (byteLength front) (front ++ back) = some (front, back) := by
  induction front with
  | nil => simp [byteLength, splitBytes]
  | cons c front ih =>
    have hpos := c.utf8Size_pos
    obtain ⟨n, hn⟩ : ∃ n, byteLength (c :: front) = n + 1 :=
      Nat.exists_eq_succ_of_ne_zero (by rw [byteLength]; omega)
    have hrest : n + 1 - c.utf8Size = byteLength front := by
      rw [byteLength] at hn
      omega
    have hfits : c.utf8Size ≤ n + 1 := by
      rw [← hn, byteLength]
      omega
    rw [hn, List.cons_append, splitBytes, if_pos hfits, hrest, ih]
    rfl

namespace Span

theorem slice_middle {source : String} {front middle back : List Char}
    (h : source.toList = front ++ (middle ++ back)) :
    slice ⟨byteLength front, byteLength front + byteLength middle⟩ source =
      String.ofList middle := by
  have hlength : byteLength front + byteLength middle - byteLength front = byteLength middle := by
    omega
  simp only [slice, sliceList, h, Nat.le_add_right, if_true, splitBytes_append, Option.bind_eq_bind,
    Option.bind_some, hlength]
  rfl

end Span

end Text

namespace TypeExpr

variable {e name : String}

theorem isTypeExpr_print (hname : Text.isName name = true) (wrapping : Wrapping) :
    IsTypeExpr (TypeRef.named name wrapping).print.toList := by
  cases wrapping with
  | single nullable =>
    have h := isNamed_bang nullable hname
    simpa [TypeRef.print, TypeRef.named] using IsTypeExpr.named h
  | list itemsNullable nullable =>
    have h := isNamed_bang itemsNullable hname
    cases nullable with
    | true => simpa [TypeRef.print, TypeRef.named, TypeRef.bang] using IsTypeExpr.list h
    | false => simpa [TypeRef.print, TypeRef.named, TypeRef.bang] using IsTypeExpr.nonNullList h

/-- Every expression of the grammar is printed from a name under one of the six wrappings. -/
theorem IsTypeExpr.printed (h : IsTypeExpr e.toList) :
    ∃ name wrapping, Text.isName name = true ∧ e = (TypeRef.named name wrapping).print := by
  have hnamed : ∀ {cs}, IsNamed cs → ∃ name nullable, Text.isName name = true ∧
      cs = name.toList ++ (TypeRef.bang nullable).toList := by
    intro cs h
    cases h with
    | nullable h =>
      exact ⟨String.ofList cs, true, by rwa [Text.isName,
        String.toList_ofList], by simp [TypeRef.bang]⟩
    | @nonNull name h =>
      exact ⟨String.ofList name, false, by rwa [Text.isName,
        String.toList_ofList], by simp [TypeRef.bang]⟩
  generalize htext : e.toList = text at h
  cases h with
  | named h =>
    obtain ⟨name, nullable, hname, rfl⟩ := hnamed h
    refine ⟨name, .single nullable, hname, ?_⟩
    apply String.toList_injective
    simp [htext, TypeRef.print, TypeRef.named]
  | list h =>
    obtain ⟨name, nullable, hname, rfl⟩ := hnamed h
    refine ⟨name, .list nullable true, hname, ?_⟩
    apply String.toList_injective
    simp [htext, TypeRef.print, TypeRef.named, TypeRef.bang]
  | nonNullList h =>
    obtain ⟨name, nullable, hname, rfl⟩ := hnamed h
    refine ⟨name, .list nullable false, hname, ?_⟩
    apply String.toList_injective
    simp [htext, TypeRef.print, TypeRef.named, TypeRef.bang]

/-- The core stands in the printed expression where its place says. -/
theorem slice_core (name : String) (wrapping : Wrapping) :
    Text.Span.slice ⟨coreStart wrapping, coreStart wrapping + Text.byteLength name.toList⟩
        (TypeRef.named name wrapping).print = name ∧
      coreStart wrapping + Text.byteLength name.toList ≤
        Text.byteLength (TypeRef.named name wrapping).print.toList := by
  obtain ⟨front, back, hfront, htext⟩ : ∃ front back, Text.byteLength front = coreStart wrapping ∧
      (TypeRef.named name wrapping).print.toList = front ++ (name.toList ++ back) := by
    cases wrapping with
    | single nullable =>
      exact ⟨[], (TypeRef.bang nullable).toList, rfl, by simp [TypeRef.print, TypeRef.named]⟩
    | list itemsNullable nullable =>
      refine ⟨['['], (TypeRef.bang itemsNullable).toList ++ ']' :: (TypeRef.bang nullable).toList,
        rfl, ?_⟩
      simp [TypeRef.print, TypeRef.named]
  rw [← hfront]
  constructor
  · rw [Text.Span.slice_middle htext, String.ofList_toList]
  · rw [htext, Text.byteLength_append, Text.byteLength_append]
    omega

end TypeExpr

open TypeExpr

/-- An expression is read exactly when the grammar has it. What is read prints as the expression
again and has its core where it stands there; and a name under any wrapping is read back from what
it prints as. -/
theorem expressions_read_exactly (e location : String) :
    ((∃ r, TypeRef.parse e location = .ok r) ↔ IsTypeExpr e.toList) ∧
    (∀ r, TypeRef.parse e location = .ok r → r.print = e ∧ r.coreSpan.slice e = r.core ∧
      r.coreSpan.stop ≤ Text.byteLength e.toList) ∧
    ∀ t : TypeRef, Text.isName t.core = true → ∃ r, TypeRef.parse t.print location = .ok r ∧
      r.core = t.core ∧ r.wrapping = t.wrapping := by
  have hback : ∀ {name}, Text.isName name = true → ∀ wrapping, ∃ r,
      TypeRef.parse (TypeRef.named name wrapping).print location = .ok r ∧ r.core = name ∧
        r.wrapping = wrapping :=
    fun hname wrapping => ⟨_, Outcome.mapError_eq_ok.mpr (parse_print hname wrapping), rfl, rfl⟩
  have hread : ∀ r, TypeRef.parse e location = .ok r → ∃ name wrapping, Text.isName name = true ∧
      e = (TypeRef.named name wrapping).print ∧ r = ⟨name, wrapping,
        ⟨coreStart wrapping, coreStart wrapping + Text.byteLength name.toList⟩⟩ := by
    intro r hr
    have hr := Outcome.mapError_eq_ok.mp hr
    rcases parse_cases e with ⟨name, wrapping, hname, hparse, htext⟩ | ⟨_, _, _, _, _, _, _, herror⟩
    · cases hparse.symm.trans hr
      exact ⟨name, wrapping, hname, String.toList_injective htext, rfl⟩
    · cases herror.symm.trans hr
  refine ⟨?_, ?_, ?_⟩
  · constructor
    · rintro ⟨r, hr⟩
      obtain ⟨name, wrapping, hname, rfl, -⟩ := hread r hr
      exact isTypeExpr_print hname wrapping
    · intro hexpr
      obtain ⟨name, wrapping, hname, rfl⟩ := hexpr.printed
      obtain ⟨r, hr, -⟩ := hback hname wrapping
      exact ⟨r, hr⟩
  · intro r hr
    obtain ⟨name, wrapping, -, rfl, rfl⟩ := hread r hr
    obtain ⟨hslice, hstop⟩ := slice_core name wrapping
    exact ⟨rfl, hslice, hstop⟩
  · intro t hname
    exact hback hname t.wrapping

theorem posts_read_exactly :
    ∃ r, TypeRef.parse "[Post_2!]!" "User.posts" = .ok r ∧ r.core = "Post_2" ∧
      r.wrapping = .list false false ∧ r.print = "[Post_2!]!" ∧
      r.coreSpan.slice "[Post_2!]!" = "Post_2" := by
  obtain ⟨-, hread, hback⟩ := expressions_read_exactly "[Post_2!]!" "User.posts"
  obtain ⟨r, hr, hcore, hwrapping⟩ := hback (.named "Post_2" (.list false false)) (by decide)
  obtain ⟨hprint, hslice, -⟩ := hread r hr
  exact ⟨r, hr, hcore, hwrapping, hprint, hslice.trans hcore⟩

/-- A text that is no expression is refused behind its longest beginning of one: at its end, or with
the one character that no expression has there. -/
theorem refused_at_first_fault {e location : String} {error : SchemaError}
    (h : TypeRef.parse e location = .error error) :
    ∃ fault span front rest, error = .badExpression location e ⟨fault, span⟩ ∧
      e.toList = front ++ rest ∧ span.start = Text.byteLength front ∧
      (∃ back, IsTypeExpr (front ++ back)) ∧
      ((rest = [] ∧ span.stop = span.start) ∨
        ∃ c more, rest = c :: more ∧ span.stop = span.start + c.utf8Size ∧
          ∀ back, ¬ IsTypeExpr (front ++ c :: back)) := by
  obtain ⟨cause, hcause, rfl⟩ := Outcome.mapError_eq_error.mp h
  rcases parse_cases e with ⟨_, _, _, hparse, _⟩ |
    ⟨s, front, rest, fault, htext, hfront, hrest, hparse⟩
  · cases hparse.symm.trans hcause
  cases hparse.symm.trans hcause
  refine ⟨fault, _, front, rest, rfl, htext, rfl, hfront.extends, ?_⟩
  cases rest with
  | nil => exact Or.inl ⟨rfl, rfl⟩
  | cons c more => exact Or.inr ⟨c, more, rfl, rfl, hfront.not_isTypeExpr (hrest c rfl)⟩

/-- A letter of two bytes in an open list is the first fault, and all of it. -/
theorem accent_refused : ∃ span front, TypeRef.parse "[Tagé]" "Post.tags" =
      .error (.badExpression "Post.tags" "[Tagé]" ⟨.unexpected 'é', span⟩) ∧ span = ⟨4, 6⟩ ∧
    front = "[Tag".toList ∧ (∃ back, IsTypeExpr (front ++ back)) ∧
    ∀ back, ¬ IsTypeExpr (front ++ 'é' :: back) := by
  have herror : TypeRef.parse "[Tagé]" "Post.tags" =
      .error (.badExpression "Post.tags" "[Tagé]" ⟨.unexpected 'é', ⟨4, 6⟩⟩) := by decide +kernel
  obtain ⟨fault, span, front, rest, hcause, htext, hstart, hback, hfirst⟩ :=
    refused_at_first_fault herror
  cases hcause
  have hvalue : Text.splitBytes 4 "[Tagé]".toList = some ("[Tag".toList, "é]".toList) := by
    decide +kernel
  have hsplit := Text.splitBytes_append front rest
  rw [← htext, ← hstart, hvalue] at hsplit
  cases hsplit
  refine ⟨_, _, herror, rfl, rfl, hback, ?_⟩
  rcases hfirst with ⟨hnone, -⟩ | ⟨c, more, hrest, -, hrefused⟩
  · cases hnone
  · cases hrest
    exact hrefused

end GraphQLClient
