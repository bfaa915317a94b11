/-!
# Closed sets

A closed set is a type whose members are listed. Its members may carry a code of one byte, the
way machine words store them, or a name, the way text shows them. Both are found again by search:
a code or a name belongs to at most one member (`ofCode?_eq_some_iff`, `ofName?_eq_some_iff`), and
one that belongs to none is refused with an error that has a text of its own.
-/

namespace Wordcode

/-- A type with a list of all its members. -/
class Closed (α : Type) where
  members : List α
  mem_members : ∀ a, a ∈ members

/-- A closed set whose members are stored as codes of one byte, no two alike. -/
class Coded (α : Type) [Closed α] where
  /-- The name of the set in messages. -/
  title : String
  code : α → UInt8
  code_injective : ∀ {a b : α}, code a = code b → a = b

/-- A closed set whose members have names, no two alike. -/
class Named (α : Type) [Closed α] where
  name : α → String
  name_injective : ∀ {a b : α}, name a = name b → a = b

/-! ### Codes -/

/-- A code that stands for no member of the set called `set`. -/
structure UnknownCode where
  set : String
  code : UInt8
deriving DecidableEq, Repr

def UnknownCode.message (e : UnknownCode) : String :=
  "No discriminant in enum `" ++ e.set ++ "` matches the value `" ++ toString e.code.toNat ++ "`"

namespace Coded

variable {α : Type} [Closed α] [Coded α]

/-- The member that a code stands for. -/
def ofCode? (α : Type) [Closed α] [Coded α] (c : UInt8) : Option α :=
  (Closed.members (α := α)).find? fun a => code a == c

/-- The member that a code stands for, or the error that names the set and the code
(`try_from`). -/
def ofCode (α : Type) [Closed α] [Coded α] (c : UInt8) : Except UnknownCode α :=
  match ofCode? α c with
  | some a => .ok a
  | none => .error ⟨title α, c⟩

/-- A code is legal if it is that of some member. -/
def Legal (α : Type) [Closed α] [Coded α] (c : UInt8) : Prop := ∃ a : α, code a = c

theorem ofCode?_code (a : α) : ofCode? α (code a) = some a := by
  cases h : ofCode? α (code a) with
  | none =>
    have hne := List.find?_eq_none.1 h a (Closed.mem_members a)
    simp at hne
  | some b =>
    have hb : code b = code a := by simpa using List.find?_some h
    rw [code_injective hb]

theorem ofCode?_eq_some_iff {c : UInt8} {a : α} : ofCode? α c = some a ↔ code a = c := by
  constructor
  · intro h
    simpa using List.find?_some h
  · rintro rfl
    exact ofCode?_code a

theorem ofCode?_eq_none_iff {c : UInt8} : ofCode? α c = none ↔ ¬ Legal α c := by
  constructor
  · rintro h ⟨a, rfl⟩
    rw [ofCode?_code] at h
    cases h
  · intro h
    cases hc : ofCode? α c with
    | none => rfl
    | some a => exact absurd ⟨a, ofCode?_eq_some_iff.1 hc⟩ h

end Coded

/-! ### Names -/

/-- A text that is no member's name. -/
structure UnknownName where
  text : String
deriving DecidableEq, Repr

def UnknownName.message (_ : UnknownName) : String := "Matching variant not found"

namespace Named

variable {α : Type} [Closed α] [Named α]

/-- The member with the given name; letter case matters. -/
def ofName? (α : Type) [Closed α] [Named α] (s : String) : Option α :=
  (Closed.members (α := α)).find? fun a => name a == s

/-- The member with the given name, or the error for a text that names none (`from_str`). -/
def ofName (α : Type) [Closed α] [Named α] (s : String) : Except UnknownName α :=
  match ofName? α s with
  | some a => .ok a
  | none => .error ⟨s⟩

theorem ofName?_eq_some_iff {s : String} {a : α} : ofName? α s = some a ↔ name a = s := by
  constructor
  · intro h
    simpa using List.find?_some h
  · rintro rfl
    cases h : ofName? α (name a) with
    | none =>
      have hne := List.find?_eq_none.1 h a (Closed.mem_members a)
      simp at hne
    | some b =>
      have hb : name b = name a := by simpa using List.find?_some h
      rw [name_injective hb]

end Named

end Wordcode
