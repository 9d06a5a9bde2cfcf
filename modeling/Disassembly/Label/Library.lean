import Disassembly.Address.Parse
import Disassembly.Label.Map

/-! # Label libraries

A library holds named groups of well-known addresses. A run asks for groups by name; the names `All`
and `None`, in letters of either case, stand for every group and for no group. In a group the name
that was put last counts, and between groups the group that was asked for first. -/

namespace Disassembly

/-- Groups of names. -/
structure LabelLibrary where
  groups : Std.TreeMap String LabelMap := ∅

namespace LabelLibrary

/-- The library without groups. -/
def empty : LabelLibrary := {}

/-- The names of the groups, in their order as texts. -/
def names (l : LabelLibrary) : List String := l.groups.keys

/-- The group of a name. -/
def group? (l : LabelLibrary) (name : String) : Option LabelMap := l.groups[name]?

/-- Puts a name for an address into a group, which is made if it is not there. -/
def insert (l : LabelLibrary) (group name : String) (a : Address) : LabelLibrary :=
  ⟨l.groups.insert group (((l.group? group).getD .empty).put a name)⟩

/-- Puts a name for an address given as text into a group. -/
def insertParsed (l : LabelLibrary) (group name text : String) : Except Error LabelLibrary :=
  (Address.parse text).map (l.insert group name)

/-! ### Asking for groups -/

/-- Whether two texts are equal but for the case of the letters from A to Z. -/
def sameLetters (s t : String) : Bool := s.toUpper == t.toUpper

/-- The groups that one request stands for. -/
def expand (l : LabelLibrary) (request : String) : Except Error (List String) :=
  if sameLetters request "None" then .ok []
  else if sameLetters request "All" then .ok l.names
  else if l.groups.contains request then .ok [request]
  else .error (.unknownLabelGroup request)

/-- The groups that a list of requests stands for, each where it comes first; the first request that
stands for nothing is an error. -/
def select (l : LabelLibrary) (requests : List String) : Except Error (List String) :=
  (requests.mapM l.expand).map fun parts => parts.flatten.eraseDups

/-- The entries of a group. -/
def entries (l : LabelLibrary) (group : String) : List (Address × String) :=
  ((l.group? group).getD .empty).toList

/-- The names that the requested groups give to addresses. -/
def seed (l : LabelLibrary) (requests : List String) : Except Error LabelMap :=
  (l.select requests).map fun groups => .ofList (groups.flatMap l.entries)

end LabelLibrary

end Disassembly
