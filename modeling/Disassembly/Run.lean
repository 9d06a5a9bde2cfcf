import Disassembly.Decoder
import Disassembly.Label.Library
import Disassembly.Label.Resolve

/-! # Runs

A run lists the window of an input that its settings choose, and names the addresses that the
listing refers to. It fails only if the bytes to skip are more than there are, or if a label group
is asked for that the library does not have. -/

namespace Disassembly

/-- The settings of a run. -/
structure Settings where
  architecture : Architecture
  /-- The address of the first byte, if not the usual one. -/
  start : Option Address := none
  /-- The number of bytes at the front that are not decoded. -/
  skip : Nat := 0
  /-- The number of bytes to decode, zero for all. -/
  limit : Nat := 0
  /-- Where names come from. -/
  library : LabelLibrary := .empty
  /-- The label groups asked for, if not the usual ones. -/
  groups : Option (List String) := none

/-- A computation that may fail, with the log of what it reports. The log is kept if it fails. -/
abbrev Logged := ExceptT Error (StateM (List Event))

/-- The result of a run. -/
structure Report where
  architecture : Architecture
  start : Address
  bytesPerRow : Nat
  instructions : List Instruction
  labels : LabelMap
  events : List Event

namespace Report

/-- The name of an address. -/
def labelAt (r : Report) (a : Address) : Option String := r.labels.get? a

/-- A line of the report, with names in place of addresses. -/
def render (r : Report) (i : Instruction) : String := i.render r.labels.get?

end Report

namespace Settings

/-- The address of the first byte. -/
def startAddress (s : Settings) : Address := s.start.getD s.architecture.defaults.start

/-- The label groups to take names from. -/
def labelGroups (s : Settings) : List String := s.groups.getD s.architecture.defaults.groups

/-- The end of the window in an input of `size` bytes. -/
def windowEnd (s : Settings) (size : Nat) : Nat :=
  if s.limit = 0 then size else min (s.skip + s.limit) size

/-- The input up to the end of the window, loaded at its address. -/
def image (s : Settings) (bytes : Array UInt8) : Image :=
  Image.cut { base := s.startAddress, bytes } (s.windowEnd bytes.size)

/-- The bytes that are passed over, each on a line of its own. -/
def skippedLines (s : Settings) (m : Image) : List Instruction :=
  (List.range s.skip).map fun i => .skipped (m.addressAt i) (m.stream i)

/-- The report on an input, with the names that the library gives. -/
def report (s : Settings) (bytes : Array UInt8) (seed : LabelMap) : Report :=
  let m := s.image bytes
  let listing := s.architecture.decoder.listing { image := m, offset := s.skip }
  let instructions := s.skippedLines m ++ listing.instructions
  let labels := LabelMap.resolve instructions s.startAddress m.size seed
  { architecture := s.architecture
    start := s.startAddress
    bytesPerRow := s.architecture.defaults.bytesPerRow
    instructions
    labels
    events :=
      .started m.size s.architecture s.startAddress s.skip seed.size ::
        (listing.events ++ [.finished instructions.length labels.size]) }

/-- The run on an input, with its log. -/
def perform (s : Settings) (bytes : Array UInt8) : Logged Report := do
  if bytes.size < s.skip then throw (.offsetOutOfRange s.skip bytes.size)
  let seed ← MonadExcept.ofExcept (s.library.seed s.labelGroups)
  let r := s.report bytes seed
  modify (· ++ r.events)
  return r

/-- The result of the run: the report, or the first thing that is wrong with the settings. -/
def run (s : Settings) (bytes : Array UInt8) : Except Error Report := ((s.perform bytes).run []).1

/-- What the run logs. -/
def log (s : Settings) (bytes : Array UInt8) : List Event := ((s.perform bytes).run []).2

theorem run_eq (s : Settings) (bytes : Array UInt8) : s.run bytes =
    if bytes.size < s.skip then .error (.offsetOutOfRange s.skip bytes.size)
    else (s.library.seed s.labelGroups).map (s.report bytes) := by
  unfold run perform
  split
  · rfl
  · cases s.library.seed s.labelGroups <;> rfl

end Settings

end Disassembly
