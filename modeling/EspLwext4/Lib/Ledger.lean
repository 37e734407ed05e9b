import Mathlib.Data.Multiset.AddSub
import Mathlib.Algebra.Order.Group.Multiset
import Mathlib.Algebra.Order.Sub.Basic

/-!
# What an owner of blocks holds

A ledger is the list of takes and gives of one owner, the most recent first. It is
legal when every block taken was not held and every block given back was.
-/

namespace EspLwext4

/-- The blocks `first`, …, `first + count - 1`. -/
def blockRun (first count : ℕ) : Multiset ℕ := ↑(List.range' first count)

theorem mem_blockRun {first count b : ℕ} : b ∈ blockRun first count ↔ first ≤ b ∧ b < first + count := by
  unfold blockRun
  rw [Multiset.mem_coe, List.mem_range'_1]

theorem blockRun_add (first n m : ℕ) : blockRun first (n + m) = blockRun first n + blockRun (first + n) m := by
  unfold blockRun
  rw [← List.range'_append_1, Multiset.coe_add]

@[simp] theorem blockRun_zero (first : ℕ) : blockRun first 0 = 0 := rfl

@[simp] theorem blockRun_one (first : ℕ) : blockRun first 1 = {first} := rfl

inductive Txn where
  | take (b : ℕ)
  | give (first count : ℕ)

namespace Ledger

/-- The blocks held after the transactions `ts`, with `base` held before. -/
def held (base : Multiset ℕ) : List Txn → Multiset ℕ
  | [] => base
  | .take b :: ts => b ::ₘ held base ts
  | .give first count :: ts => held base ts - blockRun first count

def Legal (base : Multiset ℕ) : List Txn → Prop
  | [] => True
  | .take b :: ts => b ∉ held base ts ∧ Legal base ts
  | .give first count :: ts => blockRun first count ≤ held base ts ∧ Legal base ts

/-- The ledger is legal and leaves exactly `owned`. -/
structure Balanced (base : Multiset ℕ) (ts : List Txn) (owned : Multiset ℕ) : Prop where
  legal : Legal base ts
  held : held base ts = owned

variable {base owned : Multiset ℕ} {ts : List Txn} {b first count : ℕ}

theorem Balanced.start (base : Multiset ℕ) : Balanced base [] base := ⟨trivial, rfl⟩

theorem Balanced.take (h : Balanced base ts owned) (hb : b ∉ Ledger.held base ts) :
    Balanced base (.take b :: ts) (b ::ₘ owned) :=
  ⟨⟨hb, h.legal⟩, by rw [Ledger.held, h.held]⟩

theorem Balanced.give (h : Balanced base ts (blockRun first count + owned)) :
    Balanced base (.give first count :: ts) owned := by
  constructor
  · refine ⟨?_, h.legal⟩
    rw [h.held]
    exact Multiset.le_add_right _ _
  · rw [Ledger.held, h.held, add_tsub_cancel_left]

/-- Blocks that are held once stay so. -/
theorem Legal.nodup (hbase : base.Nodup) : ∀ {ts : List Txn}, Legal base ts →
    (held base ts).Nodup := by
  intro ts
  induction ts with
  | nil => intro _; exact hbase
  | cons x ts ih =>
      cases x with
      | take b =>
          rintro ⟨hb, hlegal⟩
          exact Multiset.nodup_cons.mpr ⟨hb, ih hlegal⟩
      | give first count =>
          rintro ⟨-, hlegal⟩
          exact Multiset.nodup_of_le (Multiset.sub_le_self _ _) (ih hlegal)

/-! ## Composition -/

theorem held_append (base : Multiset ℕ) (ts ts' : List Txn) :
    held base (ts' ++ ts) = held (held base ts) ts' := by
  induction ts' with
  | nil => rfl
  | cons x ts' ih =>
      cases x with
      | take b => rw [List.cons_append, held, held, ih]
      | give first count => rw [List.cons_append, held, held, ih]

theorem legal_append {ts ts' : List Txn} :
    Legal base (ts' ++ ts) ↔ Legal (held base ts) ts' ∧ Legal base ts := by
  induction ts' with
  | nil => exact (and_iff_right trivial).symm
  | cons x ts' ih =>
      cases x with
      | take b => rw [List.cons_append, Legal, Legal, ih, held_append, and_assoc]
      | give first count => rw [List.cons_append, Legal, Legal, ih, held_append, and_assoc]

theorem Balanced.append {ts' : List Txn} {owned' : Multiset ℕ} (h : Balanced base ts owned)
    (h' : Balanced owned ts' owned') : Balanced base (ts' ++ ts) owned' := by
  obtain ⟨hlegal, rfl⟩ := h
  exact ⟨legal_append.mpr ⟨h'.legal, hlegal⟩, by rw [held_append, h'.held]⟩

/-! ## Working on the side -/

/-- `ts` takes only what is not in `base`, gives back only what it took, and keeps `own`. -/
structure Aside (base : Multiset ℕ) (ts : List Txn) (own : Multiset ℕ) : Prop where
  balanced : Balanced 0 ts own
  apart : ∀ b, Txn.take b ∈ ts → b ∉ base

theorem Aside.start (base : Multiset ℕ) : Aside base [] 0 := ⟨.start 0, fun _ h => by cases h⟩

variable {own : Multiset ℕ}

theorem Aside.take (h : Aside base ts own) (hb : b ∉ own + base) :
    Aside base (.take b :: ts) (b ::ₘ own) := by
  rw [Multiset.mem_add, not_or] at hb
  refine ⟨h.balanced.take (h.balanced.held ▸ hb.1), fun a ha => ?_⟩
  rcases List.mem_cons.mp ha with heq | ha
  · obtain rfl := Txn.take.inj heq
    exact hb.2
  · exact h.apart a ha

theorem Aside.give (h : Aside base ts (blockRun first count + own)) :
    Aside base (.give first count :: ts) own := by
  refine ⟨h.balanced.give, fun a ha => ?_⟩
  rcases List.mem_cons.mp ha with heq | ha
  · cases heq
  · exact h.apart a ha

/-- What is kept on the side comes to what was held before. -/
theorem held_of_legal_zero : ∀ {ts : List Txn}, Legal 0 ts → held base ts = held 0 ts + base := by
  intro ts
  induction ts with
  | nil => intro _; exact (zero_add base).symm
  | cons x ts ih =>
      cases x with
      | take b =>
          rintro ⟨-, hlegal⟩
          rw [held, held, ih hlegal, Multiset.cons_add]
      | give first count =>
          rintro ⟨hle, hlegal⟩
          rw [held, held, ih hlegal, tsub_add_eq_add_tsub hle]

theorem Aside.held_eq (h : Aside base ts own) : Ledger.held base ts = own + base := by
  rw [held_of_legal_zero h.balanced.legal, h.balanced.held]

theorem legal_of_apart : ∀ {ts : List Txn}, Legal 0 ts → (∀ b, Txn.take b ∈ ts → b ∉ base) →
    Legal base ts := by
  intro ts
  induction ts with
  | nil => intro _ _; trivial
  | cons x ts ih =>
      cases x with
      | take b =>
          rintro ⟨hb, hlegal⟩ hapart
          refine ⟨?_, ih hlegal fun a ha => hapart a (List.mem_cons_of_mem _ ha)⟩
          rw [held_of_legal_zero hlegal, Multiset.mem_add, not_or]
          exact ⟨hb, hapart b (by simp)⟩
      | give first count =>
          rintro ⟨hle, hlegal⟩ hapart
          refine ⟨?_, ih hlegal fun a ha => hapart a (List.mem_cons_of_mem _ ha)⟩
          rw [held_of_legal_zero hlegal]
          exact hle.trans (Multiset.le_add_right _ _)

/-- Seen from what was held before, the work on the side is legal too. -/
theorem Aside.onto (h : Aside base ts own) : Balanced base ts (own + base) :=
  ⟨legal_of_apart h.balanced.legal h.apart, h.held_eq⟩

/-- What is kept on the side is kept once and was not held before. -/
theorem Aside.nodup (h : Aside base ts own) (hbase : base.Nodup) : (own + base).Nodup :=
  h.held_eq ▸ (legal_of_apart h.balanced.legal h.apart).nodup hbase

theorem Aside.append {ts' : List Txn} {own' : Multiset ℕ} (h : Aside base ts own)
    (h' : Aside (own + base) ts' own') : Aside base (ts' ++ ts) (own' + own) := by
  have hapart : ∀ b, Txn.take b ∈ ts' → b ∉ own ∧ b ∉ base := fun b hb => by
    have := h'.apart b hb
    rwa [Multiset.mem_add, not_or] at this
  refine ⟨h.balanced.append ⟨?_, ?_⟩, fun b hb => ?_⟩
  · exact legal_of_apart h'.balanced.legal fun b hb => (hapart b hb).1
  · rw [held_of_legal_zero h'.balanced.legal, h'.balanced.held]
  · rcases List.mem_append.mp hb with hb | hb
    · exact (hapart b hb).2
    · exact h.apart b hb

end Ledger

end EspLwext4
