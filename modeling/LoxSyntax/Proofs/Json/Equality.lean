import LoxSyntax.Expr.Record

/-! # Equality of JSON documents

`Json.Value.equals` compares two documents by value: objects by their entries, in whatever order they
are, and constants by `Literal.equals`. `Json.Value.withoutLines` leaves out the lines of the objects
of some kinds. -/

namespace LoxSyntax

/-- The number is exactly the integer. -/
def Number.equalsInteger : Number → Int → Bool
  | nan, _ => false
  | signed negative m, i =>
    m ≠ .infinity && (if negative then -(m.units : Int) else m.units) = i * Magnitude.unitsPerOne

namespace Json

/-- The constant that a value is, if it is one. -/
def Value.literal? : Value → Option Literal
  | null => some .nil
  | bool value => some (.bool value)
  | number value => some (.number value)
  | text value => some (.text value)
  | integer _ | object _ => none

def Value.equalsInteger : Value → Int → Bool
  | integer j, i => j = i
  | v, i => (v.literal?.bind Literal.numeric?).any (·.equalsInteger i)

namespace Entries

def size : Entries → Nat
  | empty => 0
  | entry _ _ rest => rest.size + 1

@[simp] def names : Entries → List String
  | empty => []
  | entry name _ rest => name :: rest.names

/-- The value of the entry with the name. -/
def lookup (name : String) : Entries → Option Value
  | empty => none
  | entry name' value rest => if name' = name then some value else rest.lookup name

def erase (name : String) : Entries → Entries
  | empty => empty
  | entry name' value rest =>
    if name' = name then rest.erase name else entry name' value (rest.erase name)

end Entries

mutual

/-- Equality by value, for objects without two entries of one name. -/
def Value.equals : Value → Value → Bool
  | .object entries, .object entries' => entries.size = entries'.size && entries.within entries'
  | .integer i, v => v.equalsInteger i
  | v, .integer i => v.equalsInteger i
  | v, v' =>
    match v.literal?, v'.literal? with
    | some a, some b => a.equals b
    | _, _ => false

/-- Each entry has an equal one of the same name among the others. -/
def Entries.within : Entries → Entries → Bool
  | .empty, _ => true
  | .entry name value rest, entries =>
    (entries.lookup name).any (fun other => value.equals other) && rest.within entries

end

section Equality

variable {name name' : String} {value value' : Value} {rest rest' entries : Entries}

theorem Entries.lookup_entry_self : (entry name value rest).lookup name = some value := if_pos rfl

theorem Entries.lookup_entry_of_ne (h : name' ≠ name) :
    (entry name' value rest).lookup name = rest.lookup name :=
  if_neg h

/-- Whether entries are within others does not depend on entries of another name. -/
theorem Entries.within_entry_of_not_mem : ∀ {rest : Entries}, name ∉ rest.names →
    rest.within (entry name value entries) = rest.within entries
  | .empty, _ => rfl
  | .entry _ _ rest, h => by
    obtain ⟨hne, hrest⟩ := not_or.1 (mt List.mem_cons.2 h)
    rw [within, within, lookup_entry_of_ne hne, within_entry_of_not_mem hrest]

/-- Objects that begin with an entry of the same name are compared entry by entry. -/
@[simp] theorem Value.equals_object_entry (h : name ∉ rest.names) :
    (object (.entry name value rest)).equals (object (.entry name value' rest')) =
      (value.equals value' && (object rest).equals (object rest')) := by
  rw [equals, equals, Entries.within, Entries.lookup_entry_self, Option.any_some,
    Entries.within_entry_of_not_mem h, Bool.and_left_comm]
  simp only [Entries.size, Nat.add_right_cancel_iff]

@[simp] theorem Value.equals_object_empty : (object .empty).equals (object .empty) = true := rfl

@[simp] theorem Value.equals_integer (i j : Int) : (integer i).equals (integer j) = decide (i = j) := by
  simp [equals, equalsInteger, eq_comm]

@[simp] theorem Value.equals_text (a b : String) : (text a).equals (text b) = decide (a = b) := by
  simp [equals, literal?, Literal.equals, Literal.numeric?]

end Equality

mutual

/-- The document without the entry `line` of each object of one of the kinds. -/
def Value.withoutLines (kinds : List String) : Value → Value
  | .object entries =>
    match entries.lookup "kind" with
    | some (.text kind) =>
      .object (if kind ∈ kinds then (entries.withoutLines kinds).erase "line"
        else entries.withoutLines kinds)
    | _ => .object (entries.withoutLines kinds)
  | v => v

def Entries.withoutLines (kinds : List String) : Entries → Entries
  | .empty => .empty
  | .entry name value rest => .entry name (value.withoutLines kinds) (rest.withoutLines kinds)

end

end Json

/-- Constants are compared as such, a true one with the number one for instance. -/
@[simp] theorem Literal.equals_record (a b : Literal) : a.record.equals b.record = a.equals b := by
  cases a <;> cases b <;> rfl

end LoxSyntax
