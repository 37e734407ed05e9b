import Mathlib.Logic.Relation
import Mathlib.Tactic.Common

/-!
# Binary search with word-sized bounds

A search over the indices `1, …, n - 1` that keeps the bounds of what is left in two 32-bit
words. The rounds are given by a function that drops one half or stops, so searches that
differ in how they compare or leave the loop share the facts: no round wraps, no probe leaves
the indices, and the search ends.
-/

namespace EspLwext4

/-- The bounds of a search, as the machine holds them. -/
structure Window where
  l : UInt32
  r : UInt32
deriving DecidableEq

namespace Window

/-- The index probed next. -/
def mid (w : Window) : UInt32 := w.l + (w.r - w.l) / 2

/-- What is left in front of the probe. -/
def before (w : Window) : Window := { w with r := w.mid - 1 }

/-- What is left behind the probe. -/
def behind (w : Window) : Window := { w with l := w.mid + 1 }

/-- The window of a search over `1, …, n - 1`. -/
structure Within (n : ℕ) (w : Window) : Prop where
  pos : 1 ≤ w.l.toNat
  le : w.l.toNat ≤ w.r.toNat + 1
  lt : w.r.toNat < n

/-- The probe is one of the indices `1, …, n - 1`, and neither it nor the new bounds wrap. -/
structure Probes (n : ℕ) (w : Window) : Prop where
  mid : w.mid.toNat = w.l.toNat + (w.r.toNat - w.l.toNat) / 2
  pos : 1 ≤ w.mid.toNat
  lt : w.mid.toNat < n
  before : (w.mid - 1).toNat = w.mid.toNat - 1
  behind : (w.mid + 1).toNat = w.mid.toNat + 1

/-- The number of indices left. -/
def size (w : Window) : ℕ := w.r.toNat + 1 - w.l.toNat

section Lemmas

variable {n : ℕ} {w w' : Window}

theorem Within.probes (h : w.Within n) (hn : n < 4294967296) (hopen : w.l ≤ w.r) : w.Probes n := by
  obtain ⟨hpos, -, hlt⟩ := h
  have hle : w.l.toNat ≤ w.r.toNat := UInt32.le_iff_toNat_le.mp hopen
  have hmid : w.mid.toNat = w.l.toNat + (w.r.toNat - w.l.toNat) / 2 := by
    unfold Window.mid
    rw [UInt32.toNat_add, UInt32.toNat_div, UInt32.toNat_sub_of_le _ _ hopen]
    show (w.l.toNat + (w.r.toNat - w.l.toNat) / 2) % 4294967296 = _
    omega
  refine ⟨hmid, by omega, by omega, ?_, ?_⟩
  · have hone : (1 : UInt32) ≤ w.mid := by
      rw [UInt32.le_iff_toNat_le, UInt32.toNat_one]
      omega
    rw [UInt32.toNat_sub_of_le _ _ hone, UInt32.toNat_one]
  · rw [UInt32.toNat_add, UInt32.toNat_one]
    show (w.mid.toNat + 1) % 4294967296 = _
    omega

theorem Within.before (h : w.Within n) (hn : n < 4294967296) (hopen : w.l ≤ w.r) :
    w.before.Within n ∧ w.before.size < w.size := by
  obtain ⟨hmid, hpos, hlt, hbefore, -⟩ := h.probes hn hopen
  obtain ⟨h₁, h₂, h₃⟩ := h
  have hle : w.l.toNat ≤ w.r.toNat := UInt32.le_iff_toNat_le.mp hopen
  refine ⟨⟨h₁, ?_, ?_⟩, ?_⟩
  · show w.l.toNat ≤ (w.mid - 1).toNat + 1
    omega
  · show (w.mid - 1).toNat < n
    omega
  · show (w.mid - 1).toNat + 1 - w.l.toNat < w.r.toNat + 1 - w.l.toNat
    omega

theorem Within.behind (h : w.Within n) (hn : n < 4294967296) (hopen : w.l ≤ w.r) :
    w.behind.Within n ∧ w.behind.size < w.size := by
  obtain ⟨hmid, hpos, hlt, -, hbehind⟩ := h.probes hn hopen
  obtain ⟨h₁, h₂, h₃⟩ := h
  have hle : w.l.toNat ≤ w.r.toNat := UInt32.le_iff_toNat_le.mp hopen
  refine ⟨⟨?_, ?_, h₃⟩, ?_⟩
  · show 1 ≤ (w.mid + 1).toNat
    omega
  · show (w.mid + 1).toNat ≤ w.r.toNat + 1
    omega
  · show w.r.toNat + 1 - (w.mid + 1).toNat < w.r.toNat + 1 - w.l.toNat
    omega

/-- The window over all of `1, …, n - 1`. -/
theorem within_all (h0 : 1 ≤ n) (hn : n < 4294967296) :
    (⟨1, UInt32.ofNat n - 1⟩ : Window).Within n ∧
      (⟨1, UInt32.ofNat n - 1⟩ : Window).r.toNat = n - 1 := by
  have hnat : (UInt32.ofNat n).toNat = n := by
    rw [UInt32.toNat_ofNat']
    exact Nat.mod_eq_of_lt hn
  have hone : (1 : UInt32) ≤ UInt32.ofNat n := by
    rw [UInt32.le_iff_toNat_le, UInt32.toNat_one, hnat]
    exact h0
  have hr : (UInt32.ofNat n - 1).toNat = n - 1 := by
    rw [UInt32.toNat_sub_of_le _ _ hone, hnat, UInt32.toNat_one]
  refine ⟨⟨Nat.le_refl 1, ?_, ?_⟩, hr⟩
  · show (1 : UInt32).toNat ≤ (UInt32.ofNat n - 1).toNat + 1
    rw [UInt32.toNat_one]
    omega
  · show (UInt32.ofNat n - 1).toNat < n
    omega

end Lemmas

/-! ## Searches -/

/-- A round drops one half of an open window, or stops. -/
def Halves (f : Window → Option Window) : Prop :=
  ∀ w w', f w = some w' → w.l ≤ w.r ∧ (w' = w.before ∨ w' = w.behind)

/-- `f` gets from `w` to `w'` in some rounds. -/
abbrev Reaches (f : Window → Option Window) : Window → Window → Prop :=
  Relation.ReflTransGen fun w w' => f w = some w'

section Searches

variable {f g : Window → Option Window} {n : ℕ} {w w' : Window}

theorem Halves.step (h : Halves f) (hn : n < 4294967296) (hw : w.Within n) (hf : f w = some w') :
    w'.Within n ∧ w'.size < w.size := by
  obtain ⟨hopen, rfl | rfl⟩ := h w w' hf
  · exact hw.before hn hopen
  · exact hw.behind hn hopen

theorem Halves.within (h : Halves f) (hn : n < 4294967296) (hw : w.Within n)
    (hr : Reaches f w w') : w'.Within n := by
  induction hr with
  | refl => exact hw
  | tail _ hf ih => exact (h.step hn ih hf).1

/-- The search ends: every round leaves fewer indices. -/
theorem Halves.ends (h : Halves f) (hn : n < 4294967296) (hw : w.Within n) :
    ∃ last, Reaches f w last ∧ f last = none := by
  induction hsize : w.size using Nat.strongRecOn generalizing w with
  | ind k ih =>
      rcases hf : f w with _ | w'
      · exact ⟨w, .refl, hf⟩
      · obtain ⟨hw', hlt⟩ := h.step hn hw hf
        obtain ⟨last, hreach, hlast⟩ := ih w'.size (hsize ▸ hlt) hw' rfl
        exact ⟨last, .head hf hreach, hlast⟩

/-- Two searches with the same rounds on the windows of the search get to the same ones. -/
theorem Halves.reaches_congr (h : Halves f) (hn : n < 4294967296)
    (hfg : ∀ w, w.Within n → g w = f w) (hw : w.Within n) (hr : Reaches f w w') :
    Reaches g w w' := by
  induction hr with
  | refl => exact .refl
  | tail hr hf ih => exact .tail ih ((hfg _ (h.within hn hw hr)).trans hf)

end Searches

end Window

end EspLwext4
