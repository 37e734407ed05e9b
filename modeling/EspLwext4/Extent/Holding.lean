import EspLwext4.Lib.Ledger
import EspLwext4.Extent.Separators

/-!
# Blocks taken and given back

The ledger of a log, what is asked of the allocator, and `Holding`: a good tree is
on the disk, its blocks are held, and the allocator hands out only others. A call
that works on a tree spends what it takes for it: `Spent`.
-/

namespace EspLwext4

open Prog Bytes Ranged

variable (inodeRef : InodeRef) (g : Grade)

/-- What a logged call does to the ledger; a call that fails does nothing. -/
def Event.txn : Event → Option Txn
  | .ballocAllocBlock _ (.ok b) => some (.take b)
  | .io (.ballocFreeBlock b) none => some (.give b 1)
  | .io (.ballocFreeBlocks first count) none => some (.give first count)
  | _ => none

def txns (evs : List Event) : List Txn := evs.filterMap Event.txn

/-- From the log `tr` on the allocator hands out only blocks of the volume that are
free, when the blocks `base` are held to begin with. -/
def HandsOut (base : Multiset ℕ) (tr : List Event) : Prop :=
  ∀ goal evs b, inodeRef.lwext4.ballocAllocBlock goal (evs ++ tr) = .ok b →
    b ≠ 0 ∧ b < inodeRef.blocksCnt ∧ b ∉ Ledger.held base (txns evs)

/-- Between `s` and `s'` only blocks outside `base` were taken, only such blocks were
given back, and `own` was kept. -/
def Spent (base : Multiset ℕ) (s s' : St) (own : Multiset ℕ) : Prop :=
  ∃ evs, s'.trace = evs ++ s.trace ∧ Ledger.Aside base (txns evs) own

/-- Between `s` and `s'` what is held went from `base` to `base'`, and nothing was taken that
was held nor given back that was not. -/
def Settled (base : Multiset ℕ) (s s' : St) (base' : Multiset ℕ) : Prop :=
  ∃ evs, s'.trace = evs ++ s.trace ∧ Ledger.Balanced base (txns evs) base'

/-- An allocation was refused between `s` and `s'`, with the error `err`. -/
def Refused (s s' : St) (err : Errno) : Prop :=
  ∃ goal, LoggedSince s s' (.ballocAllocBlock goal (.error err))

/-- A call outside failed between `s` and `s'`, with the error `err`. -/
def Troubled (s s' : St) (err : Errno) : Prop := IoFailed inodeRef s s' err ∨ Refused s s' err

/-- The tree `t` is on the disk, its blocks are among `base`, and no block of `base` is
handed out. -/
structure Holding (base : Multiset ℕ) (s : St) {d : ℕ} (t : SepTree Ext4Extent d) : Prop where
  rep : Rep inodeRef g s.bytes t
  ok : TreeOk inodeRef g t
  within : ∀ a ∈ t.below, a ∈ base
  handsOut : HandsOut inodeRef base s.trace

section Lemmas

variable {inodeRef g} {base own own' : Multiset ℕ} {s s' s'' : St} {evs evs' : List Event}
variable {d b : ℕ} {t : SepTree Ext4Extent d}

theorem txns_append (evs evs' : List Event) : txns (evs ++ evs') = txns evs ++ txns evs' :=
  List.filterMap_append

theorem Event.txn_of_quiet {ev : Event} (h : ev.quiet = true) : ev.txn = none := by
  unfold Event.quiet at h
  unfold Event.txn
  split <;> simp_all

theorem Quiet.txns (h : Quiet s s') : ∃ evs, s'.trace = evs ++ s.trace ∧ txns evs = [] := by
  obtain ⟨evs, htrace, hq⟩ := h
  refine ⟨evs, htrace, ?_⟩
  exact List.filterMap_eq_nil_iff.mpr fun ev hev => Event.txn_of_quiet (hq ev hev)

/-! ## Spending -/

theorem Spent.of_quiet (base : Multiset ℕ) (h : Quiet s s') : Spent base s s' 0 := by
  obtain ⟨evs, htrace, htxns⟩ := h.txns
  exact ⟨evs, htrace, htxns ▸ .start base⟩

theorem Spent.refl (base : Multiset ℕ) (s : St) : Spent base s s 0 := .of_quiet base (.refl s)

theorem Spent.trans (h : Spent base s s' own) (h' : Spent (own + base) s' s'' own') :
    Spent base s s'' (own' + own) := by
  obtain ⟨evs, htrace, haside⟩ := h
  obtain ⟨evs', htrace', haside'⟩ := h'
  refine ⟨evs' ++ evs, by rw [htrace', htrace, List.append_assoc], ?_⟩
  rw [txns_append]
  exact haside.append haside'

/-- A quiet stretch after the spending. -/
theorem Spent.quiet (h : Spent base s s' own) (h' : Quiet s' s'') : Spent base s s'' own := by
  have := h.trans (.of_quiet _ h')
  rwa [zero_add] at this

theorem Spent.after (h : Quiet s s') (h' : Spent base s' s'' own) : Spent base s s'' own := by
  have := (Spent.of_quiet base h).trans (by rwa [zero_add])
  rwa [add_zero] at this

theorem Spent.suffix (h : Spent base s s' own) : s.trace <:+ s'.trace :=
  let ⟨evs, htrace, _⟩ := h
  ⟨evs, htrace.symm⟩

/-- A block taken. -/
theorem Spent.take {goal : ℕ} (hb : b ∉ base) :
    Spent base s (s.log (.ballocAllocBlock goal (.ok b))) {b} := by
  refine ⟨[.ballocAllocBlock goal (.ok b)], rfl, ?_⟩
  have := (Ledger.Aside.start base).take (b := b) (by rwa [zero_add])
  exact this

/-- Some of what was taken given back. -/
theorem Spent.give {first count : ℕ} {ev : Event} (h : Spent base s s' (blockRun first count + own))
    (hev : ev.txn = some (.give first count)) : Spent base s (s'.log ev) own := by
  obtain ⟨evs, htrace, haside⟩ := h
  refine ⟨ev :: evs, by rw [St.trace_log, htrace]; rfl, ?_⟩
  have htxns : txns (ev :: evs) = .give first count :: txns evs := List.filterMap_cons_some hev
  rw [htxns]
  exact haside.give

/-- An allocation that failed. -/
theorem Spent.refused {goal : ℕ} {err : Errno} (base : Multiset ℕ) :
    Spent base s (s.log (.ballocAllocBlock goal (.error err))) 0 :=
  ⟨[.ballocAllocBlock goal (.error err)], rfl, .start base⟩

/-! ## Settling -/

theorem Spent.settled (h : Spent base s s' own) : Settled base s s' (own + base) := by
  obtain ⟨evs, htrace, haside⟩ := h
  exact ⟨evs, htrace, haside.onto⟩

theorem Settled.of_quiet (base : Multiset ℕ) (h : Quiet s s') : Settled base s s' base := by
  have := (Spent.of_quiet base h).settled
  rwa [zero_add] at this

theorem Settled.trans {base' base'' : Multiset ℕ} (h : Settled base s s' base')
    (h' : Settled base' s' s'' base'') : Settled base s s'' base'' := by
  obtain ⟨evs, htrace, hbal⟩ := h
  obtain ⟨evs', htrace', hbal'⟩ := h'
  refine ⟨evs' ++ evs, by rw [htrace', htrace, List.append_assoc], ?_⟩
  rw [txns_append]
  exact hbal.append hbal'

theorem Settled.suffix {base' : Multiset ℕ} (h : Settled base s s' base') : s.trace <:+ s'.trace :=
  let ⟨evs, htrace, _⟩ := h
  ⟨evs, htrace.symm⟩

/-- A run given back. -/
theorem Settled.give {first count : ℕ} (base : Multiset ℕ) (s : St) :
    Settled (blockRun first count + base) s (s.log (.io (.ballocFreeBlocks first count) none))
      base :=
  ⟨[.io (.ballocFreeBlocks first count) none], rfl, (Ledger.Balanced.start _).give⟩

theorem HandsOut.settled {base' : Multiset ℕ} (h : HandsOut inodeRef base s.trace)
    (h' : Settled base s s' base') : HandsOut inodeRef base' s'.trace := by
  obtain ⟨evs, htrace, hbal⟩ := h'
  intro goal evs' b hb
  rw [htrace, ← List.append_assoc] at hb
  obtain ⟨h0, hlt, hmem⟩ := h goal (evs' ++ evs) b hb
  refine ⟨h0, hlt, ?_⟩
  rwa [txns_append, Ledger.held_append, hbal.held] at hmem

theorem HandsOut.after (h : HandsOut inodeRef base s.trace) (h' : Spent base s s' own) :
    HandsOut inodeRef (own + base) s'.trace := h.settled h'.settled

theorem HandsOut.quiet (h : HandsOut inodeRef base s.trace) (h' : Quiet s s') :
    HandsOut inodeRef base s'.trace := by
  have := h.after (.of_quiet base h')
  rwa [zero_add] at this

/-- What the next allocation answers. -/
theorem HandsOut.next {goal : ℕ} (h : HandsOut inodeRef base s.trace)
    (hb : inodeRef.lwext4.ballocAllocBlock goal s.trace = .ok b) :
    b ≠ 0 ∧ b < inodeRef.blocksCnt ∧ b ∉ base := h goal [] b hb

theorem CallFailed.troubled {c : IoCall} {err : Errno} (h : CallFailed inodeRef s s' c err) :
    Troubled inodeRef s s' err := Or.inl ⟨c, h⟩

theorem ReadFailed.troubled {site : Site} {err : Errno} (h : ReadFailed inodeRef s s' site err) :
    Troubled inodeRef s s' err := Or.inl h.io

theorem Troubled.of_alloc {goal : ℕ} {err : Errno} (h : s.trace <:+ s'.trace) :
    Troubled inodeRef s (s'.log (.ballocAllocBlock goal (.error err))) err :=
  Or.inr ⟨goal, .of_log _ h⟩

theorem Troubled.mono {err : Errno} (h : Troubled inodeRef s s' err)
    (h' : s'.trace <:+ s''.trace) : Troubled inodeRef s s'' err :=
  h.imp (fun h => h.mono h') fun ⟨goal, hg⟩ => ⟨goal, hg.mono h'⟩

theorem Troubled.earlier {err : Errno} (h : Troubled inodeRef s' s'' err)
    (h' : s.trace <:+ s'.trace) : Troubled inodeRef s s'' err :=
  h.imp (fun h => h.earlier h') fun ⟨goal, hg⟩ => ⟨goal, hg.earlier h'⟩

/-! ## Holding a tree -/

theorem Holding.reads (h : Holding inodeRef g base s t) (h' : Reads s s') :
    Holding inodeRef g base s' t :=
  ⟨by rw [h'.bytes]; exact h.rep, h.ok, h.within, h.handsOut.quiet h'.quiet⟩

/-- Another tree, after some spending. -/
theorem Holding.next {d' : ℕ} {t' : SepTree Ext4Extent d'} (h : Holding inodeRef g base s t)
    (hs : Spent base s s' own) (hrep : Rep inodeRef g s'.bytes t') (ok : TreeOk inodeRef g t')
    (hbelow : ∀ a ∈ t'.below, a ∈ own + base) : Holding inodeRef g (own + base) s' t' :=
  ⟨hrep, ok, hbelow, h.handsOut.after hs⟩

theorem Holding.kept (h : Holding inodeRef g base s t) (hs : Spent base s s' 0)
    (hbytes : s'.bytes = s.bytes) : Holding inodeRef g base s' t := by
  have hnext := h.next hs (show Rep inodeRef g s'.bytes t by rw [hbytes]; exact h.rep) h.ok
    (by rw [zero_add]; exact h.within)
  rwa [zero_add] at hnext

/-- A new block that was not used is given back. -/
theorem Holding.unused (h : Holding inodeRef g base s t) (hs : Spent base s s' {b})
    (hbytes : s'.bytes = s.bytes) :
    Holding inodeRef g base (s'.log (.io (.ballocFreeBlock b) none)) t ∧
      Spent base s (s'.log (.io (.ballocFreeBlock b) none)) 0 := by
  have hrun : Spent base s s' (blockRun b 1 + 0) := by rwa [blockRun_one, add_zero]
  have hgive : Spent base s (s'.log (.io (.ballocFreeBlock b) none)) 0 := hrun.give rfl
  exact ⟨h.kept hgive hbytes, hgive⟩

/-- A new block is in no node of the tree. -/
theorem Holding.fresh (h : Holding inodeRef g base s t) (h0 : b ≠ 0) (hb : b ∉ base) :
    b ∉ t.addrs := by
  rw [SepTree.addrs_eq, Multiset.mem_cons, not_or, h.ok.addr]
  exact ⟨h0, fun hmem => hb (h.within b hmem)⟩

theorem below_of_addrs {d' : ℕ} {t' : SepTree Ext4Extent d'} (haddr : t'.addr = t.addr)
    (h : t'.addrs = own + t.addrs) : t'.below = own + t.below := by
  rw [SepTree.addrs_eq, SepTree.addrs_eq t, haddr, Multiset.add_cons] at h
  exact (Multiset.cons_inj_right _).mp h

end Lemmas

end EspLwext4
