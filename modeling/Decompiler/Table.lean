/-!
# Tables in insertion order

A table keeps its entries in the order in which their keys were first inserted; inserting a key
again changes its value and keeps its place.
-/

namespace Decompiler

structure Table (κ α : Type) where
  entries : List (κ × α)
  deriving Inhabited

namespace Table

variable {κ α : Type} [BEq κ]

def empty : Table κ α := ⟨[]⟩

def get? (t : Table κ α) (k : κ) : Option α :=
  t.entries.lookup k

def contains (t : Table κ α) (k : κ) : Bool :=
  (t.get? k).isSome

/-- Gives a key a value: in its place if it has one, and otherwise at the end. -/
def insert (t : Table κ α) (k : κ) (a : α) : Table κ α :=
  if t.contains k then ⟨t.entries.map fun (k', a') => if k' == k then (k', a) else (k', a')⟩
  else ⟨t.entries ++ [(k, a)]⟩

def erase (t : Table κ α) (k : κ) : Table κ α :=
  ⟨t.entries.filter fun (k', _) => !(k' == k)⟩

def keys (t : Table κ α) : List κ :=
  t.entries.map Prod.fst

def values (t : Table κ α) : List α :=
  t.entries.map Prod.snd

def ofList (entries : List (κ × α)) : Table κ α :=
  entries.foldl (fun t (k, a) => t.insert k a) empty

end Table

end Decompiler
