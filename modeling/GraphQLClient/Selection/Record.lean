import GraphQLClient.Selection.Basic
import GraphQLClient.Text.Basic

/-!
# Selections of records

A record type describes its own selection: one node for each member, nested where the member's type
leads to a record. Wrappers such as lists and optional values do not matter.
-/
namespace GraphQLClient

inductive Wrapper where
  | optional
  | list
  | box
  | shared
  | sharedAcrossThreads
  | fixedList (length : Nat)
  deriving DecidableEq, Repr

/-- A map stops the search for a record, whatever its values are. -/
inductive MemberType where
  | scalar
  | map
  | record (name : String)
  | wrapped (wrapper : Wrapper) (inner : MemberType)
  deriving DecidableEq, Repr

def MemberType.core : MemberType → MemberType
  | .wrapped _ inner => inner.core
  | type => type

inductive RenameRule where
  | asWritten
  | camelCase
  deriving DecidableEq, Repr

def RenameRule.apply : RenameRule → String → String
  | .asWritten, name => name
  | .camelCase, name => Text.camelCase name

/-- `leaf` selects a member without looking at its type, `skip` leaves it out. -/
structure Member where
  name : String
  type : MemberType
  rename : Option String
  leaf : Bool
  skip : Bool
  deriving DecidableEq, Repr

structure Record where
  name : String
  rule : RenameRule
  members : List Member
  deriving DecidableEq, Repr

namespace Member

def plainName (m : Member) : String :=
  if "r#".toList.isPrefixOf m.name.toList then String.ofList (m.name.toList.drop 2) else m.name

def key (rule : RenameRule) (m : Member) : String := m.rename.getD (rule.apply m.plainName)

end Member

namespace Record

/-- The nodes of members. `free` are the records that are not being unfolded; a record that contains
itself has no selection. -/
def unfoldMembers (records : List Record) (free : List String) (rule : RenameRule) :
    List Member → Option (List Node)
  | [] => some []
  | m :: rest =>
    if m.skip then unfoldMembers records free rule rest
    else
      match (if m.leaf then .scalar else m.type.core : MemberType) with
      | .record name =>
        if _onFree : name ∈ free then do
          let record ← records.find? (·.name == name)
          let children ← unfoldMembers records (free.erase name) record.rule record.members
          let nodes ← unfoldMembers records free rule rest
          return .block (m.key rule) none children :: nodes
        else none
      | _ => do
        let nodes ← unfoldMembers records free rule rest
        return .leaf (m.key rule) none :: nodes
  termination_by members => (free.length, members.length)
  decreasing_by
    · exact Prod.Lex.right _ (by simp)
    · exact Prod.Lex.left _ _ (by
        have hpos := List.length_pos_of_mem _onFree
        rw [List.length_erase_of_mem _onFree]
        omega)
    · exact Prod.Lex.right _ (by simp)
    · exact Prod.Lex.right _ (by simp)

def selection? (records : List Record) (root : String) : Option (List Node) := do
  let record ← records.find? (·.name == root)
  unfoldMembers records ((records.map Record.name).erase root) record.rule record.members

end Record

/-!
## Declared records

A record type as it is declared, with settings at the type and at its members. Settings are read in
order, and one that is given again takes the place of the earlier one.
-/

inductive RecordSetting where
  | renameAll (rule : String)
  | other (name : String)
  deriving DecidableEq, Repr

inductive MemberSetting where
  | rename (key : String)
  | leaf
  | skip
  | other (name : String)
  deriving DecidableEq, Repr

structure MemberDeclaration where
  name : String
  type : MemberType
  settings : List MemberSetting
  deriving DecidableEq, Repr

inductive TypeBody where
  | named (members : List MemberDeclaration)
  | positional
  | alternatives
  deriving DecidableEq, Repr

structure TypeDeclaration where
  name : String
  settings : List RecordSetting
  body : TypeBody
  deriving DecidableEq, Repr

inductive DeclarationFault where
  | noRecord
  | unnamedMembers
  | unknownSetting
  | unsupportedRule (rule : String)
  deriving DecidableEq, Repr

def DeclarationFault.message : DeclarationFault → String
  | .noRecord => "Selectable can only be derived for structs"
  | .unnamedMembers => "Selectable needs a struct with named fields"
  | .unknownSetting => "unknown selection attribute"
  | .unsupportedRule rule =>
    s!"unsupported rename_all rule `{rule}`, expected \"camelCase\" or \"snake_case\""

def RenameRule.named? : String → Option RenameRule
  | "camelCase" => some .camelCase
  | "snake_case" => some .asWritten
  | "none" => some .asWritten
  | _ => none

def RecordSetting.rule : RecordSetting → Except DeclarationFault RenameRule
  | .renameAll text =>
    match RenameRule.named? text with
    | some rule => .ok rule
    | none => .error (.unsupportedRule text)
  | .other _ => .error .unknownSetting

/-- Members keep their names unless a setting says otherwise. -/
def RecordSetting.readRule (settings : List RecordSetting) : Except DeclarationFault RenameRule :=
  settings.foldlM (fun _ setting => setting.rule) .asWritten

def Member.set (m : Member) : MemberSetting → Except DeclarationFault Member
  | .rename key => .ok { m with rename := some key }
  | .leaf => .ok { m with leaf := true }
  | .skip => .ok { m with skip := true }
  | .other _ => .error .unknownSetting

def MemberDeclaration.read (d : MemberDeclaration) : Except DeclarationFault Member :=
  d.settings.foldlM Member.set ⟨d.name, d.type, none, false, false⟩

def TypeDeclaration.read (d : TypeDeclaration) : Except DeclarationFault Record :=
  match d.body with
  | .alternatives => .error .noRecord
  | .positional => .error .unnamedMembers
  | .named members => do
    let rule ← RecordSetting.readRule d.settings
    let members ← members.mapM MemberDeclaration.read
    return ⟨d.name, rule, members⟩

def TypeDeclaration.selection? (declarations : List TypeDeclaration) (root : String) :
    Except DeclarationFault (Option (List Node)) := do
  let records ← declarations.mapM TypeDeclaration.read
  return Record.selection? records root

end GraphQLClient
