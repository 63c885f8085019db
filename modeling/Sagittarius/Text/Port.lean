import Mathlib.Data.List.Basic
import Mathlib.Order.Lattice

/-!
# Binary input ports

The part of `port.c` through which everything else reads bytes.  A `Source` is what a port reads
from: its bytes, and how many of them are there when it is read the next time, so that a short read
is possible at any time but at the end of the bytes.  A `BinaryPort` is what reading changes.

* `Source.readb`, `Source.getb` : several bytes, or one byte;
* `Source.unread` : the bytes that have not been read yet, by which all results about readers are
  stated;
* `Source.unread_readb`, `Source.getb_eq` : what is read is taken from their front.

`SG_PORT_U8_AHEAD` is added in `Text/ReadUntil.lean`: nothing that is modelled before peeks at a
byte.
-/

namespace Sagittarius.Text

open List

/-- What a binary port reads from; `avail t + 1` bytes are there when it is read the `t`-th time. -/
structure Source where
  bytes : List UInt8
  avail : ℕ → ℕ
  hasSetPortPosition : Bool

/-- A binary port: its position, and how often it has been read. -/
structure BinaryPort where
  position : ℕ
  clock : ℕ

/-- `Sg_SetPortPosition(port, -1, SG_CURRENT)` goes back by one byte. -/
def BinaryPort.back (p : BinaryPort) : BinaryPort := { p with position := p.position - 1 }

namespace Source

variable (src : Source) (p : BinaryPort) (size : ℕ)

/-- `readb` returns what is there, but not more than `size` bytes. -/
def readb : List UInt8 × BinaryPort :=
  let bytes := (src.bytes.drop p.position).take (min size (src.avail p.clock + 1))
  (bytes, ⟨p.position + bytes.length, p.clock + 1⟩)

/-- `Sg_GetbUnsafe` reads one byte. -/
def getb : Option UInt8 × BinaryPort :=
  let (bytes, p) := src.readb p 1
  (bytes.head?, p)

/-- The bytes that have not been read yet. -/
def unread : List UInt8 := src.bytes.drop p.position

theorem unread_readb : (src.readb p size).1 ++ src.unread (src.readb p size).2 = src.unread p := by
  set k := min size (src.avail p.clock + 1) with hk
  have hdrop : src.unread (src.readb p size).2 = (src.unread p).drop k := by
    rw [unread, readb, ← drop_drop, unread, ← hk, length_take]
    rcases Nat.le_total k (src.bytes.drop p.position).length with hle | hle
    · rw [Nat.min_eq_left hle]
    · rw [Nat.min_eq_right hle, drop_length, drop_eq_nil_of_le hle]
  rw [hdrop]
  exact take_append_drop _ _

theorem length_readb_le : (src.readb p size).1.length ≤ size :=
  (length_take_le _ _).trans (min_le_left _ _)

variable {src p}

theorem readb_eq_nil {size : ℕ} (hsize : 0 < size) (h : (src.readb p size).1 = []) :
    src.unread p = [] := by
  rcases take_eq_nil_iff.1 h with hzero | hnil
  · omega
  · exact hnil

theorem readb_of_unread_nil (h : src.unread p = []) (size : ℕ) : (src.readb p size).1 = [] := by
  have happ := src.unread_readb p size
  rw [h, append_eq_nil_iff] at happ
  exact happ.1

variable (src p)

theorem getb_eq : ∃ p', src.getb p = ((src.unread p).head?, p') ∧
    src.unread p' = (src.unread p).tail := by
  have happ := src.unread_readb p 1
  have hlen := src.length_readb_le p 1
  refine ⟨(src.readb p 1).2, ?_⟩
  cases hread : (src.readb p 1).1 with
  | nil =>
    have hnil := readb_eq_nil Nat.one_pos hread
    rw [hread, nil_append] at happ
    simp [getb, hread, hnil, happ]
  | cons b l =>
    obtain rfl : l = [] := by
      rw [hread, length_cons] at hlen
      exact eq_nil_of_length_eq_zero (Nat.le_zero.1 (Nat.le_of_succ_le_succ hlen))
    rw [hread] at happ
    simp [getb, hread, ← happ]

end Source

end Sagittarius.Text
