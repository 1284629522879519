/-! # Comparing the entries of a list

Equality by value need not be reflexive, since "not a number" differs from itself. An entry of a
list is still the same as itself: `equalityTable` compares all entries with each other under that
rule, and `distinct` keeps the first of equal entries. -/

namespace LoxSyntax

variable {α : Type} (equals : α → α → Bool)

/-- Which entries of a list an entry is the same as, the entry itself among them. -/
def equalityRow (entries : List α) (entry : α) (index : Nat) : List Bool :=
  entries.zipIdx.map fun (other, i) => i == index || equals entry other

/-- For each entry of a list, which entries it is the same as. -/
def equalityTable (entries : List α) : List (List Bool) :=
  entries.zipIdx.map fun (entry, i) => equalityRow equals entries entry i

/-- The entries that are equal to none before them. -/
def distinct (entries : List α) : List α :=
  entries.eraseDupsBy equals

end LoxSyntax
