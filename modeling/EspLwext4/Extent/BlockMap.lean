import EspLwext4.Lib.Machine
import EspLwext4.Extent.Volume

/-!
# What the hooks are for

The file system asks the extent code for the blocks of a file, has new ones mapped and old ones
taken off the map. To its callers a file is a partial map from logical to physical blocks that
gives no physical block twice; here is what each call may answer, and what it does to the map.
-/

namespace EspLwext4

/-- A call of `ext4_extent_get_blocks` or `ext4_extent_remove_space`. -/
inductive Request where
  | getBlocks (iblock maxBlocks : UInt32) (create : Bool)
  | removeSpace (first last : UInt32)
deriving DecidableEq

/-- What it reports: `*result` and `*blocks_count` with `EOK`, `EOK` alone, or an error. -/
inductive Reply where
  | blocks (result count : ℕ)
  | removed
  | failed (err : Errno)
deriving DecidableEq

structure Turn where
  request : Request
  reply : Reply
deriving DecidableEq

/-- Some logical blocks have a physical block, no two the same. -/
structure BlockMap where
  block : ℕ → Option ℕ
  apart : ∀ {u v p}, block u = some p → block v = some p → u = v

namespace BlockMap

def empty : BlockMap := ⟨fun _ => none, fun h => by cases h⟩

/-- None of the `count` blocks from `first` on is on the map. -/
def Unused (m : BlockMap) (first count : ℕ) : Prop :=
  ∀ v p, m.block v = some p → ¬ (first ≤ p ∧ p < first + count)

/-- The `count` blocks from `iblock` on get those from `first` on. -/
def add (m : BlockMap) (iblock first count : ℕ) (h : m.Unused first count) : BlockMap where
  block v := if iblock ≤ v ∧ v < iblock + count then some (first + (v - iblock)) else m.block v
  apart := by
    intro u v p hu hv
    by_cases hin : iblock ≤ u ∧ u < iblock + count
    · by_cases hin' : iblock ≤ v ∧ v < iblock + count
      · rw [if_pos hin, Option.some.injEq] at hu
        rw [if_pos hin', Option.some.injEq] at hv
        omega
      · rw [if_pos hin, Option.some.injEq] at hu
        rw [if_neg hin'] at hv
        exact absurd ⟨by omega, by omega⟩ (h v p hv)
    · by_cases hin' : iblock ≤ v ∧ v < iblock + count
      · rw [if_neg hin] at hu
        rw [if_pos hin', Option.some.injEq] at hv
        exact absurd ⟨by omega, by omega⟩ (h u p hu)
      · rw [if_neg hin] at hu
        rw [if_neg hin'] at hv
        exact m.apart hu hv

/-- The blocks from `a` on and before `z` are taken off. -/
def erase (m : BlockMap) (a z : ℕ) : BlockMap where
  block v := if a ≤ v ∧ v < z then none else m.block v
  apart := by
    intro u v p hu hv
    split at hu
    · cases hu
    · split at hv
      · cases hv
      · exact m.apart hu hv

/-- What a call may answer, and the map after it. A call that fails leaves the map alone, but for
a removal, which may have come some way. -/
inductive Step : BlockMap → Turn → BlockMap → Prop
  | found {m : BlockMap} {iblock maxBlocks : UInt32} {create : Bool} {p count : ℕ}
      (here : m.block iblock.toNat = some p) (le : count ≤ maxBlocks.toNat)
      (pos : 0 < maxBlocks.toNat → 0 < count)
      (run : ∀ k < count, m.block (iblock.toNat + k) = some (p + k)) :
      Step m ⟨.getBlocks iblock maxBlocks create, .blocks p count⟩ m
  | hole {m : BlockMap} {iblock maxBlocks : UInt32} (here : m.block iblock.toNat = none) :
      Step m ⟨.getBlocks iblock maxBlocks false, .blocks 0 0⟩ m
  | created {m : BlockMap} {iblock maxBlocks : UInt32} {p count : ℕ} (pos : 0 < count)
      (le : count ≤ maxBlocks.toNat) (free : ∀ k < count, m.block (iblock.toNat + k) = none)
      (new : m.Unused p count) :
      Step m ⟨.getBlocks iblock maxBlocks true, .blocks p count⟩ (m.add iblock.toNat p count new)
  | refused {m : BlockMap} {iblock maxBlocks : UInt32} {create : Bool} {err : Errno} :
      Step m ⟨.getBlocks iblock maxBlocks create, .failed err⟩ m
  | removed {m : BlockMap} {first last : UInt32} :
      Step m ⟨.removeSpace first last, .removed⟩ (m.erase first.toNat (last.toNat + 1))
  | cutShort {m : BlockMap} {first last : UInt32} {err : Errno} {n : ℕ} (le : n ≤ last.toNat + 1) :
      Step m ⟨.removeSpace first last, .failed err⟩ (m.erase first.toNat n)

/-- A removal that covers the block `v`. -/
def Removes (v : ℕ) (turn : Turn) : Prop :=
  ∃ first last reply, turn = ⟨.removeSpace first last, reply⟩ ∧ first.toNat ≤ v ∧ v ≤ last.toNat

/-- A call with `create` that reported a block for `v`. -/
def Maps (v : ℕ) (turn : Turn) : Prop :=
  ∃ iblock maxBlocks p count, turn = ⟨.getBlocks iblock maxBlocks true, .blocks p count⟩ ∧
    iblock.toNat ≤ v ∧ v < iblock.toNat + count

section Lemmas

variable {m m' m'' : BlockMap} {turn : Turn} {turns : List (Turn)} {v p : ℕ}
variable {iblock maxBlocks : UInt32} {create : Bool} {count : ℕ}

/-- A mapped block keeps its physical block until it is removed. -/
theorem Step.stays (h : Step m turn m') (hno : ¬ Removes v turn) (hv : m.block v = some p) :
    m'.block v = some p := by
  cases h with
  | found | hole | refused => exact hv
  | @created iblock _ _ _ pos le free new =>
      refine (if_neg fun hin => ?_).trans hv
      have hnone := free (v - iblock.toNat) (by omega)
      rw [Nat.add_sub_cancel' hin.1, hv] at hnone
      cases hnone
  | removed =>
      exact (if_neg fun hin => hno ⟨_, _, _, rfl, hin.1, Nat.le_of_lt_succ hin.2⟩).trans hv
  | cutShort le =>
      refine (if_neg fun hin => hno ⟨_, _, _, rfl, hin.1, ?_⟩).trans hv
      exact Nat.le_of_lt_succ (Nat.lt_of_lt_of_le hin.2 le)

/-- A block that is not mapped stays so until it is created. -/
theorem Step.stays_gone (h : Step m turn m') (hno : ¬ Maps v turn) (hv : m.block v = none) :
    m'.block v = none := by
  cases h with
  | found | hole | refused => exact hv
  | created pos le free new =>
      exact (if_neg fun hin => hno ⟨_, _, _, _, rfl, hin.1, hin.2⟩).trans hv
  | removed | cutShort => exact ite_eq_left_iff.mpr fun _ => hv

/-- What a call reported is on the map then. -/
theorem Step.reported (h : Step m ⟨.getBlocks iblock maxBlocks create, .blocks p count⟩ m')
    (hle : iblock.toNat ≤ v) (hlt : v < iblock.toNat + count) :
    m'.block v = some (p + (v - iblock.toNat)) := by
  cases h with
  | found here le pos run =>
      have hrun := run (v - iblock.toNat) (by omega)
      rwa [Nat.add_sub_cancel' hle] at hrun
  | hole here => omega
  | created pos le free new => exact if_pos ⟨hle, hlt⟩

theorem Step.erased {first last : UInt32}
    (h : Step m ⟨.removeSpace first last, .removed⟩ m') (hle : first.toNat ≤ v)
    (hlt : v ≤ last.toNat) : m'.block v = none := by
  cases h with
  | removed => exact if_pos ⟨hle, Nat.lt_succ_of_le hlt⟩

/-- Blocks a call reported for `v` are found there until a removal that covers it. -/
theorem stays_of_run (h : Machine.Run Step m turns m') (hno : ∀ turn ∈ turns, ¬ Removes v turn)
    (hv : m.block v = some p) : m'.block v = some p :=
  h.keeps (I := fun m => m.block v = some p) (fun hI hC hstep => hstep.stays hC hI) hno hv

theorem gone_of_run (h : Machine.Run Step m turns m') (hno : ∀ turn ∈ turns, ¬ Maps v turn)
    (hv : m.block v = none) : m'.block v = none :=
  h.keeps (I := fun m => m.block v = none) (fun hI hC hstep => hstep.stays_gone hC hI) hno hv

end Lemmas

end BlockMap

end EspLwext4
