import Std.Data.TreeMap
import Disassembly.Address

/-! # Label maps

A label map gives names to addresses, and lists them in the order of the addresses. There are two
ways to add a name: `record` keeps a name that is already there, `put` replaces it. -/

namespace Disassembly

/-- Names of addresses. -/
structure LabelMap where
  names : Std.TreeMap Address String := ∅

namespace LabelMap

/-- The map without names. -/
def empty : LabelMap := {}

/-- The name of an address. -/
def get? (m : LabelMap) (a : Address) : Option String := m.names[a]?

/-- Whether an address has a name. -/
def contains (m : LabelMap) (a : Address) : Bool := m.names.contains a

/-- The number of names. -/
def size (m : LabelMap) : Nat := m.names.size

/-- The addresses with their names, in the order of the addresses. -/
def toList (m : LabelMap) : List (Address × String) := m.names.toList

/-- Names an address that has no name yet, and tells whether it had none. -/
def recordNew (m : LabelMap) (a : Address) (name : String) : Bool × LabelMap :=
  let (present, names) := m.names.containsThenInsertIfNew a name
  (!present, ⟨names⟩)

/-- Names an address that has no name yet. -/
def record (m : LabelMap) (a : Address) (name : String) : LabelMap := (m.recordNew a name).2

/-- Names an address, whether it has a name or not. -/
def put (m : LabelMap) (a : Address) (name : String) : LabelMap := ⟨m.names.insert a name⟩

/-- Records a list of names, so that of two names for an address the earlier one stays. -/
def recordAll (m : LabelMap) (names : List (Address × String)) : LabelMap :=
  names.foldl (fun m entry => m.record entry.1 entry.2) m

/-- The names of a list, of two names for an address the earlier one. -/
def ofList (names : List (Address × String)) : LabelMap := empty.recordAll names

@[simp] theorem get?_empty (a : Address) : empty.get? a = none := by simp [empty, get?]

theorem fst_recordNew (m : LabelMap) (a : Address) (name : String) :
    (m.recordNew a name).1 = (m.get? a).isNone := by
  simp [recordNew, get?]

theorem get?_record (m : LabelMap) (a b : Address) (name : String) :
    (m.record a name).get? b = if a = b ∧ m.get? b = none then some name else m.get? b := by
  simp only [record, recordNew, get?, Std.TreeMap.containsThenInsertIfNew_snd,
    Std.TreeMap.getElem?_insertIfNew, Std.LawfulEqCmp.compare_eq_iff_eq]
  by_cases h : a = b
  · subst h
    by_cases hm : a ∈ m.names <;> simp [hm]
  · simp [h]

theorem get?_put (m : LabelMap) (a b : Address) (name : String) :
    (m.put a name).get? b = if a = b then some name else m.get? b := by
  simp [put, get?, Std.TreeMap.getElem?_insert]

end LabelMap

end Disassembly
