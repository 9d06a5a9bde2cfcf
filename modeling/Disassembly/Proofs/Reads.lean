import Disassembly.Proofs.JumpTargets

/-! # Reads and peeks of a cursor

A cursor shows the image with zero bytes without end behind it. Calls that read move it forward, and
the bytes they give, put together, are the front of this stream; calls that peek leave it as it is.
But a position has 64 bits, so the stream is not without end for a caller: a call that needs a
position beyond them has no answer, also where the answer would be zero.

* `Call.answer`, `answers`: what calls ought to answer, by their place in the image;
* `Call.Fits`, `Fits`: when all the positions that they need are there;
* `Cursor.call_eq`, `Cursor.session_eq`: one call, and a run of calls by induction. -/

namespace Disassembly

namespace Cursor

/-! ### Calls -/

/-- A call of a cursor. -/
inductive Call where
  /-- Takes the next `n` bytes. -/
  | read (n : UInt64)
  /-- Looks at the byte at a distance ahead. -/
  | peek (n : UInt64)
  /-- Looks at the byte at a distance ahead, as a signed number. -/
  | peekSigned (n : UInt64)
  /-- Looks at the word at a distance ahead. -/
  | peekWord (n : UInt64)
  /-- Looks at the byte at an offset in the image. -/
  | peekAt (i : Int)
  /-- Sets the mark. -/
  | setMark (mark : Int)

/-- What a call answers. -/
inductive Answer where
  | bytes (bs : List UInt8)
  | number (n : Int)
  | done
  deriving DecidableEq

/-- The bytes that were read. -/
def Answer.bytesRead : Answer → List UInt8
  | bytes bs => bs
  | number _ | done => []

/-- The answer to a call, and the cursor after it. -/
def call (c : Cursor) : Call → Option (Answer × Cursor)
  | .read n => (c.read? n).map fun r => (.bytes r.1, r.2)
  | .peek n => (c.peek? n).map fun b => (.number b.toNat, c)
  | .peekSigned n => (c.peek? n).map fun b => (.number (signed b), c)
  | .peekWord n => (c.peekWord? n).map fun w => (.number w.toNat, c)
  | .peekAt i => some (.number (c.image.byteAt i).toNat, c)
  | .setMark mark => some (.done, c.withMark mark)

/-- The answers to a run of calls, and the cursor after it. A call without an answer ends it. -/
def session (c : Cursor) : List Call → Option (List Answer × Cursor)
  | [] => some ([], c)
  | x :: xs => do
    let (answer, next) ← c.call x
    let (answers, last) ← next.session xs
    return (answer :: answers, last)

/-! ### What calls ought to answer -/

/-- The number of bytes that a call takes. -/
def Call.size : Call → Nat
  | read n => n.toNat
  | peek _ | peekSigned _ | peekWord _ | peekAt _ | setMark _ => 0

/-- The mark after a call, if it was `mark` before. -/
def Call.markAfter (mark : Int) : Call → Int
  | setMark new => new
  | read _ | peek _ | peekSigned _ | peekWord _ | peekAt _ => mark

/-- The answer that a call ought to give at an offset of an image with zeros behind it. -/
def Call.answer (m : Image) (offset : Nat) : Call → Answer
  | read n => .bytes ((List.range n.toNat).map fun k => m.bytes.getD (offset + k) 0)
  | peek n => .number (m.bytes.getD (offset + n.toNat) 0).toNat
  | peekSigned n => .number (m.bytes.getD (offset + n.toNat) 0).toInt8.toInt
  | peekWord n =>
    .number ((m.bytes.getD (offset + n.toNat) 0).toNat +
      256 * (m.bytes.getD (offset + n.toNat + 1) 0).toNat)
  | peekAt i => .number (if 0 ≤ i then m.bytes.getD i.toNat 0 else 0).toNat
  | setMark _ => .done

/-- The answers that a run of calls ought to give from an offset on. -/
def answers (m : Image) (offset : Nat) : List Call → List Answer
  | [] => []
  | x :: xs => x.answer m offset :: answers m (offset + x.size) xs

/-- The number of bytes that a run of calls takes. -/
def total : List Call → Nat
  | [] => 0
  | x :: xs => x.size + total xs

/-- The mark after a run of calls, if it was `mark` before. -/
def lastMark (mark : Int) : List Call → Int
  | [] => mark
  | x :: xs => lastMark (x.markAfter mark) xs

/-- The positions that a call needs at an offset fit into 64 bits: those of the bytes it looks at,
and the position behind the bytes it takes, which must also have room in one block. -/
def Call.Fits (offset : Nat) : Call → Prop
  | read n => n.toNat ≤ blockLimit ∧ offset + n.toNat < UInt64.size
  | peek n | peekSigned n => offset + n.toNat < UInt64.size
  | peekWord n => offset + n.toNat + 1 < UInt64.size
  | peekAt _ | setMark _ => True

/-- All positions that a run of calls needs from an offset on fit into 64 bits. -/
def Fits (offset : Nat) : List Call → Prop
  | [] => True
  | x :: xs => x.Fits offset ∧ Fits (offset + x.size) xs

instance Call.decidableFits (offset : Nat) : (x : Call) → Decidable (x.Fits offset)
  | read _ => inferInstanceAs (Decidable (_ ∧ _))
  | peek _ | peekSigned _ | peekWord _ => inferInstanceAs (Decidable (_ < _))
  | peekAt _ | setMark _ => inferInstanceAs (Decidable True)

instance decidableFits (offset : Nat) : (xs : List Call) → Decidable (Fits offset xs)
  | [] => inferInstanceAs (Decidable True)
  | x :: xs =>
    have := decidableFits (offset + x.size) xs
    inferInstanceAs (Decidable (x.Fits offset ∧ Fits (offset + x.size) xs))

/-! ### What they answer -/

set_option maxRecDepth 2000 in
theorem signed_eq : ∀ b : UInt8, signed b = b.toInt8.toInt := forall_byte (by decide)

theorem peekWord?_eq (c : Cursor) (n : UInt64) : c.peekWord? n =
    if c.offset + n.toNat + 1 < UInt64.size then
      some (littleEndian (c.image.stream (c.offset + n.toNat))
        (c.image.stream (c.offset + n.toNat + 1)))
    else none := by
  unfold peekWord? peek? position?
  by_cases hn : n.toNat + 1 < UInt64.size
  · have hnext : (n + 1).toNat = n.toNat + 1 := by
      rw [UInt64.toNat_add]
      exact Nat.mod_eq_of_lt hn
    rw [if_pos hn, hnext, ← Nat.add_assoc]
    by_cases hfit : c.offset + n.toNat + 1 < UInt64.size
    · rw [if_pos hfit, if_pos hfit, if_pos (Nat.lt_of_succ_lt hfit)]
      rfl
    · simp [hfit]
  · rw [if_neg hn, if_neg (by omega)]

theorem read?_eq (c : Cursor) (n : UInt64) : c.read? n =
    if n.toNat ≤ blockLimit ∧ c.offset + n.toNat < UInt64.size then
      some (c.ahead.take n.toNat, c.advance n.toNat)
    else none := by
  unfold read? position?
  by_cases hn : n.toNat ≤ blockLimit
  · by_cases hfit : c.offset + n.toNat < UInt64.size
    · rw [if_pos hn, if_pos hfit, if_pos ⟨hn, hfit⟩]
      rfl
    · simp [hn, hfit]
  · simp [hn]

/-- **One call** gives the answer it ought to, or none if it needs a position beyond 64 bits. -/
theorem call_eq (c : Cursor) (x : Call) : c.call x =
    if x.Fits c.offset then
      some (x.answer c.image c.offset, (c.advance x.size).withMark (x.markAfter c.mark))
    else none := by
  cases x with
  | read n =>
    simp only [call, read?_eq, apply_ite (Option.map _), Option.map_some, Option.map_none]
    rfl
  | peek n =>
    simp only [call, peek?, position?, apply_ite (Option.map _), Option.map_some, Option.map_none]
    rfl
  | peekSigned n =>
    simp only [call, peek?, position?, apply_ite (Option.map _), Option.map_some, Option.map_none,
      signed_eq]
    rfl
  | peekWord n =>
    simp only [call, peekWord?_eq, apply_ite (Option.map _), Option.map_some, Option.map_none,
      toNat_littleEndian]
    rfl
  | peekAt i => exact (if_pos trivial).symm
  | setMark mark => exact (if_pos trivial).symm

/-- **A run of calls** gives the answers it ought to, or none if one of them is missing. -/
theorem session_eq : ∀ (xs : List Call) (c : Cursor), c.session xs =
    if Fits c.offset xs then
      some (answers c.image c.offset xs, (c.advance (total xs)).withMark (lastMark c.mark xs))
    else none
  | [], _ => rfl
  | x :: xs, c => by
    rw [session, call_eq]
    by_cases hx : x.Fits c.offset
    · have hrest := session_eq xs ((c.advance x.size).withMark (x.markAfter c.mark))
      rw [if_pos hx, Option.bind_eq_bind, Option.bind_some]
      simp only [hrest]
      by_cases hxs : Fits (c.offset + x.size) xs
      · rw [if_pos (show Fits ((c.advance x.size).withMark _).offset xs from hxs),
          if_pos ⟨hx, hxs⟩]
        simp only [total, lastMark, answers, advance, withMark, Nat.add_assoc]
        rfl
      · rw [if_neg (show ¬ Fits ((c.advance x.size).withMark _).offset xs from hxs),
          if_neg fun h => hxs h.2]
        rfl
    · rw [if_neg hx, if_neg fun h => hx h.1]
      rfl

theorem bytesRead_answers (m : Image) : ∀ (xs : List Call) (offset : Nat),
    (answers m offset xs).flatMap Answer.bytesRead = (m.stream.drop offset).take (total xs)
  | [], _ => rfl
  | x :: xs, offset => by
    have hx : (x.answer m offset).bytesRead = (m.stream.drop offset).take x.size := by
      cases x <;> rfl
    rw [answers, List.flatMap_cons, hx, bytesRead_answers m xs, total, ByteStream.take_add,
      ByteStream.drop_drop]

/-! ### Sessions -/

/-- **A cursor is a window on its image, as far as 64 bits reach.** For any run of calls on a fresh
cursor:
* it has answers exactly if all positions it needs fit into 64 bits; they are then those that the
  image with zeros behind it gives, the offset is the number of bytes that were read, and the mark
  the last one that was set;
* the bytes that were read, put together, are the front of the image with zeros behind it;
* there is more exactly if the offset is inside the image, and the address is as far behind the
  base, modulo 65536, if this distance fits into 64 bits;
* every further call, whatever it is, again has its answer exactly if it needs no position beyond 64
  bits. Peeks leave the cursor as it is, and setting the mark changes nothing else. -/
theorem session_window (m : Image) (xs : List Call) :
    let c : Cursor := { image := m, offset := total xs, mark := lastMark 0 xs }
    session { image := m } xs = (if Fits 0 xs then some (answers m 0 xs, c) else none) ∧
    (answers m 0 xs).flatMap Answer.bytesRead =
      (List.range (total xs)).map (fun k => m.bytes.getD k 0) ∧
    (c.hasMore = true ↔ total xs < m.size) ∧
    (∀ a, c.address? = some a ↔
      m.base.toNat + total xs < UInt64.size ∧ a.toNat = (m.base.toNat + total xs) % 65536) ∧
    ∀ x : Call, c.call x =
      if x.Fits (total xs) then
        some (x.answer m (total xs),
          { image := m, offset := total xs + x.size, mark := x.markAfter (lastMark 0 xs) })
      else none := by
  intro c
  have haddress : c.address.toNat = (m.base.toNat + total xs) % 65536 := m.toNat_addressAt _
  refine ⟨?_, ?_, c.hasMore_iff, fun a => ?_, c.call_eq⟩
  · rw [session_eq]
    simp only [advance, Nat.zero_add]
    rfl
  · rw [bytesRead_answers, ByteStream.drop_zero]
    rfl
  · rw [← haddress, UInt16.toNat_inj, eq_comm (a := a)]
    unfold address?
    split
    · next hfits => exact ⟨fun h => ⟨hfits, Option.some.inj h⟩, fun h => congrArg some h.2⟩
    · next hfits =>
      constructor
      · intro h; cases h
      · exact fun h => absurd h.1 hfits

-- Reads past the end of an image at the last address, and the furthest peeks that have an answer.
example :
    let m : Image := { base := 0xFFFF, bytes := #[0x20, 0x89] }
    let c : Cursor := { image := m, offset := 3, mark := -3 }
    session { image := m } [.read 1, .peekWord 0, .setMark (-3), .read 2] =
        some ([.bytes [0x20], .number 0x89, .done, .bytes [0x89, 0x00]], c) ∧
      c.address? = some 2 ∧
      c.call (.peek 18446744073709551612) = some (.number 0, c) ∧
      c.call (.peekWord 18446744073709551611) = some (.number 0, c) := by decide

/-- **A peek far ahead has no answer.** Behind the one byte of an image there are only zeros, but
after a read of this byte the position at the largest distance does not fit into 64 bits, nor does
the distance of the second byte of a word there, even before the read. -/
theorem peek_far_ahead :
    let m : Image := { base := 0x0000, bytes := #[0x80] }
    let n : UInt64 := 18446744073709551615
    total [.read 1, .peek n] = 1 ∧ m.bytes.getD (1 + n.toNat) 0 = 0 ∧
      session { image := m } [.read 1, .peek n] = none ∧
      m.bytes.getD (0 + n.toNat) 0 = 0 ∧ m.bytes.getD (0 + n.toNat + 1) 0 = 0 ∧
      session { image := m } [.peekWord n] = none := by
  decide

end Cursor

end Disassembly
