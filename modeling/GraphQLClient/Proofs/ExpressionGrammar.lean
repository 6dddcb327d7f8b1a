import GraphQLClient.Proofs.CharacterClasses

/-!
# The grammar of type expressions

Which texts are type expressions, told apart from how they are read, and how far a text is the
beginning of one: every beginning has a stage, which tells the characters that may stand next.
-/
namespace GraphQLClient.TypeExpr

inductive IsNamed : List Char → Prop where
  | nullable {name : List Char} (h : Text.isNameList name = true) : IsNamed name
  | nonNull {name : List Char} (h : Text.isNameList name = true) : IsNamed (name ++ ['!'])

inductive IsTypeExpr : List Char → Prop where
  | named {cs : List Char} (h : IsNamed cs) : IsTypeExpr cs
  | list {cs : List Char} (h : IsNamed cs) : IsTypeExpr ('[' :: cs ++ [']'])
  | nonNullList {cs : List Char} (h : IsNamed cs) : IsTypeExpr ('[' :: cs ++ [']', '!'])

/-- How far an expression has been written. `item` is behind the `!` in brackets, and nothing
follows what is `ended`. -/
inductive Stage where
  | start
  | opened
  | named (list : Bool)
  | item
  | closed
  | ended
  deriving DecidableEq, Repr

namespace Stage

variable {s : Stage} {c : Char} {cs name front : List Char}

/-- The stage behind the next character, where the character may stand. -/
def next? : Stage → Char → Option Stage
  | .start, c =>
    if c = '[' then some .opened else if Text.isNameStart c then some (.named false) else none
  | .opened, c => if Text.isNameStart c then some (.named true) else none
  | .named list, c =>
    if Text.isNameChar c then some (.named list)
    else if c = '!' then some (if list then .item else .ended)
    else if c = ']' ∧ list = true then some .closed
    else none
  | .item, c => if c = ']' then some .closed else none
  | .closed, c => if c = '!' then some .ended else none
  | .ended, _ => none

def run? (s : Stage) (cs : List Char) : Option Stage := cs.foldlM next? s

def beforeName (list : Bool) : Stage := if list then .opened else .start

@[simp] theorem run?_append (s : Stage) (front back : List Char) :
    s.run? (front ++ back) = (s.run? front).bind fun t => t.run? back :=
  List.foldlM_append

@[simp] theorem run?_cons (s : Stage) (c : Char) (cs : List Char) :
    s.run? (c :: cs) = (s.next? c).bind fun t => t.run? cs := rfl

theorem run?_nameChars (list : Bool) (h : ∀ c ∈ cs, Text.isNameChar c = true) :
    (named list).run? cs = some (named list) := by
  induction cs with
  | nil => rfl
  | cons c cs ih =>
    have hc : (named list).next? c = some (named list) := if_pos (h c List.mem_cons_self)
    simpa [hc] using ih fun d hd => h d (List.mem_cons_of_mem c hd)

theorem run?_name (list : Bool) (h : Text.isNameList name = true) :
    (beforeName list).run? name = some (named list) := by
  obtain ⟨first, others, rfl, hfirst, hall⟩ := Text.isNameList_eq_true h
  have hbracket : first ≠ '[' := by
    rintro rfl
    cases hfirst
  have hnext : (beforeName list).next? first = some (named list) := by
    cases list <;> simp [beforeName, next?, hfirst, hbracket]
  rw [run?_cons, hnext]
  exact run?_nameChars list fun c hc => hall c (List.mem_cons_of_mem first hc)

inductive Reaches : Stage → List Char → Prop where
  | start : Reaches .start []
  | opened : Reaches .opened ['[']
  | named {name : List Char} (h : Text.isNameList name = true) : Reaches (.named false) name
  | listed {name : List Char} (h : Text.isNameList name = true) :
      Reaches (.named true) ('[' :: name)
  | item {name : List Char} (h : Text.isNameList name = true) : Reaches .item ('[' :: name ++ ['!'])
  | closed {cs : List Char} (h : IsNamed cs) : Reaches .closed ('[' :: cs ++ [']'])
  | ended {name : List Char} (h : Text.isNameList name = true) : Reaches .ended (name ++ ['!'])
  | endedList {cs : List Char} (h : IsNamed cs) : Reaches .ended ('[' :: cs ++ [']', '!'])

theorem run?_items (h : IsNamed cs) :
    ∃ s, Stage.opened.run? cs = some s ∧ s.next? ']' = some .closed := by
  cases h with
  | nullable h => exact ⟨.named true, run?_name true h, rfl⟩
  | @nonNull name h =>
    have hname : Stage.opened.run? name = some (named true) := run?_name true h
    refine ⟨.item, ?_, rfl⟩
    rw [run?_append, hname]
    rfl

theorem run?_brackets (h : IsNamed cs) (back : List Char) :
    Stage.start.run? ('[' :: cs ++ ']' :: back) = Stage.closed.run? back := by
  obtain ⟨s, hitems, hclosed⟩ := run?_items h
  have hopen : Stage.start.next? '[' = some .opened := rfl
  simp [hopen, hitems, hclosed]

/-- The stage is what the characters lead to, one by one. -/
theorem Reaches.run? (h : s.Reaches front) : Stage.start.run? front = some s := by
  have hname : ∀ {name : List Char}, Text.isNameList name = true →
      Stage.start.run? name = some (Stage.named false) := fun h => run?_name false h
  have hlisted : ∀ {name : List Char}, Text.isNameList name = true →
      Stage.start.run? ('[' :: name) = some (Stage.named true) := fun h => run?_name true h
  cases h with
  | start => rfl
  | opened => rfl
  | named h => exact hname h
  | listed h => exact hlisted h
  | item h =>
    rw [run?_append, hlisted h]
    rfl
  | closed h => exact run?_brackets h []
  | ended h =>
    rw [run?_append, hname h]
    rfl
  | endedList h => exact run?_brackets h ['!']

/-- Whatever has a stage is the beginning of an expression. -/
theorem Reaches.extends (h : s.Reaches front) : ∃ back, IsTypeExpr (front ++ back) := by
  have hletter : Text.isNameList ['T'] = true := by decide
  cases h with
  | start => exact ⟨['T'], .named (.nullable hletter)⟩
  | opened => exact ⟨['T', ']'], .list (.nullable hletter)⟩
  | named h => exact ⟨[], (List.append_nil _).symm ▸ .named (.nullable h)⟩
  | listed h => exact ⟨[']'], .list (.nullable h)⟩
  | item h => exact ⟨[']'], .list (.nonNull h)⟩
  | closed h => exact ⟨[], (List.append_nil _).symm ▸ .list h⟩
  | ended h => exact ⟨[], (List.append_nil _).symm ▸ .named (.nonNull h)⟩
  | endedList h => exact ⟨[], (List.append_nil _).symm ▸ .nonNullList h⟩

end Stage

theorem IsTypeExpr.reaches {cs : List Char} (h : IsTypeExpr cs) : ∃ s : Stage, s.Reaches cs := by
  cases h with
  | named h =>
    cases h with
    | nullable h => exact ⟨_, .named h⟩
    | nonNull h => exact ⟨_, .ended h⟩
  | list h => exact ⟨_, .closed h⟩
  | nonNullList h => exact ⟨_, .endedList h⟩

theorem Stage.Reaches.not_isTypeExpr {s : Stage} {front : List Char} {c : Char}
    (h : s.Reaches front) (hc : s.next? c = none) (back : List Char) :
    ¬ IsTypeExpr (front ++ c :: back) := by
  intro hexpr
  obtain ⟨t, ht⟩ := hexpr.reaches
  have hrun := ht.run?
  simp [h.run?, hc] at hrun

end GraphQLClient.TypeExpr
