import EspLwext4.Lib.Loans
import EspLwext4.Extent.Inert
import EspLwext4.Extent.Sample

/-!
# Blocks got and released

Every block that `ext4_trans_block_get` or `ext4_trans_block_get_noread` handed out is
released by `ext4_block_set`, once, whatever the outside calls answer. `Lends A m B F`
says which blocks are on loan before and after a part of the code; the functions of
the port follow each other by the rules of `Triple`.
-/

namespace EspLwext4

open Prog Loans

variable (inodeRef : InodeRef)

/-- What a logged call lends or takes back. A release that reports an error is one. -/
def Event.loan : Event → Option (Loan ℕ)
  | .io (.transBlockGet _ b) none => some (.lend b)
  | .io (.transBlockGetNoread b) none => some (.lend b)
  | .io (.blockSet b) _ => some (.back b)
  | _ => none

def loans (evs : List Event) : List (Loan ℕ) := evs.filterMap Event.loan

/-- Since `s₀` blocks were lent in order, no more than two at a time, and `own` is on
loan in `s`. -/
def Owes (s₀ : St) (own : Multiset ℕ) (s : St) : Prop :=
  ∃ evs, s.trace = evs ++ s₀.trace ∧ Orderly 2 (loans evs) ∧ onLoan (loans evs) = own

/-- Started with `own` on loan, `m` leaves `B a` on loan when it returns `a`, and `F` when
it fails. -/
abbrev Lends {α : Type} (s₀ : St) (own : Multiset ℕ) (m : M α) (B : α → Multiset ℕ)
    (F : Multiset ℕ) : Prop :=
  Triple (Owes s₀ own) m (fun a => Owes s₀ (B a)) (Owes s₀ F)

/-- `m` neither gets nor releases a block. -/
def Idle {α : Type} (m : M α) : Prop := ∀ s₀ own, Lends s₀ own m (fun _ => own) own

/-- `m` releases what it gets. -/
def Settles {α : Type} (m : M α) : Prop := ∀ s₀, Lends s₀ 0 m (fun _ => 0) 0

section Lemmas

variable {inodeRef} {α β : Type} {s₀ s s' : St} {own F G : Multiset ℕ} {m : M α}
variable {p q : Place} {b off len pos n level : ℕ} {node : ExtentPathNode} {path : ExtentSearchPath}

/-! ## The log -/

theorem Owes.log {ev : Event} (h : Owes s₀ own s) (hev : ev.loan = none) :
    Owes s₀ own (s.log ev) := by
  obtain ⟨evs, htrace, hrun⟩ := h
  refine ⟨ev :: evs, by rw [St.trace_log, htrace]; rfl, ?_⟩
  have hloans : loans (ev :: evs) = loans evs := List.filterMap_cons_none hev
  rwa [hloans]

theorem Owes.lend {ev : Event} (h : Owes s₀ own s) (hev : ev.loan = some (.lend b))
    (hroom : own.card < 2) : Owes s₀ (b ::ₘ own) (s.log ev) := by
  obtain ⟨evs, htrace, horderly, rfl⟩ := h
  refine ⟨ev :: evs, by rw [St.trace_log, htrace]; rfl, ?_⟩
  have hloans : loans (ev :: evs) = .lend b :: loans evs := List.filterMap_cons_some hev
  rw [hloans]
  exact ⟨⟨hroom, horderly⟩, rfl⟩

theorem Owes.back {ev : Event} (h : Owes s₀ (b ::ₘ own) s) (hev : ev.loan = some (.back b)) :
    Owes s₀ own (s.log ev) := by
  obtain ⟨evs, htrace, horderly, hown⟩ := h
  refine ⟨ev :: evs, by rw [St.trace_log, htrace]; rfl, ?_⟩
  have hloans : loans (ev :: evs) = .back b :: loans evs := List.filterMap_cons_some hev
  rw [hloans]
  exact ⟨⟨hown ▸ Multiset.mem_cons_self b own, horderly⟩, onLoan_back hown⟩

/-! ## Parts that leave the loans alone -/

theorem ofTrace_owes (s₀ : St) (own : Multiset ℕ) : OfTrace (Owes s₀ own) := by
  intro s s' htrace hs
  unfold Owes at hs ⊢
  rwa [htrace]

theorem Inert.lends (h : Inert m) (s₀ : St) (own F : Multiset ℕ) : Lends s₀ own m (fun _ => own) F :=
  h _ _ (ofTrace_owes s₀ own)

theorem Still.idle (h : Still m) : Idle m := fun s₀ own => h _ (ofTrace_owes s₀ own)

theorem Inert.idle (h : Inert m) : Idle m := h.still.idle

theorem Idle.settles (h : Idle m) : Settles m := fun s₀ => h s₀ 0

theorem Idle.pure (a : α) : Idle (Pure.pure a : M α) := (Inert.pure a).idle

theorem Idle.raise (e : Errno) : Idle (Prog.raise e : M α) := fun _ _ => Triple.raise

theorem Idle.bind {f : α → M β} (h : Idle m) (h' : ∀ a, Idle (f a)) : Idle (m >>= f) :=
  fun s₀ own => (h s₀ own).bind fun a => h' a s₀ own

theorem Idle.ite {c : Prop} [Decidable c] {k : M α} (h : c → Idle m) (h' : ¬ c → Idle k) :
    Idle (if c then m else k) :=
  fun s₀ own => .ite (fun hc => h hc s₀ own) fun hc => h' hc s₀ own

theorem Idle.whenever {c : Prop} [Decidable c] {k : M Unit} (h : Idle k) :
    Idle (Prog.whenever c k) := .ite (fun _ => h) fun _ => .pure ()

theorem Idle.failIf (c : Prop) [Decidable c] (e : Errno) : Idle (Prog.failIf c e : M Unit) :=
  .ite (fun _ => .raise e) fun _ => .pure ()

theorem Idle.attempt (h : Idle m) (s₀ : St) (own F : Multiset ℕ) :
    Lends s₀ own m.attempt (fun _ => own) F := (h s₀ own).attempt

theorem Idle.attempted (h : Idle m) : Idle m.attempt := fun s₀ own => h.attempt s₀ own own

theorem Settles.pure (a : α) : Settles (Pure.pure a : M α) := (Idle.pure a).settles

theorem Settles.raise (e : Errno) : Settles (Prog.raise e : M α) := (Idle.raise e).settles

theorem Settles.crash (x : Fault) : Settles (Prog.crash x : M α) := (Inert.crash x).idle.settles

theorem Settles.bind {f : α → M β} (h : Settles m) (h' : ∀ a, Settles (f a)) :
    Settles (m >>= f) := fun s₀ => (h s₀).bind fun a => h' a s₀

theorem Settles.ite {c : Prop} [Decidable c] {k : M α} (h : c → Settles m) (h' : ¬ c → Settles k) :
    Settles (if c then m else k) := fun s₀ => .ite (fun hc => h hc s₀) fun hc => h' hc s₀

theorem Settles.whenever {c : Prop} [Decidable c] {k : M Unit} (h : Settles k) :
    Settles (Prog.whenever c k) := .ite (fun _ => h) fun _ => .pure ()

theorem Settles.orElse {h : Errno → M α} (hm : Settles m) (hh : ∀ e, Settles (h e)) :
    Settles (m.orElse h) := fun s₀ => (hm s₀).orElse fun e => hh e s₀

theorem Settles.attempt (h : Settles m) : Settles m.attempt := fun s₀ => (h s₀).attempt

/-! ## Checks -/

theorem idle_checked (first count : ℕ) :
    Idle (Prog.update (·.log (.checked first count)) : M Unit) :=
  fun _ _ => Triple.update fun _ hs => hs.log rfl

theorem Owes.entryEvents (h : Owes s₀ own s) (d : Bytes) (hd : Ext4ExtentHeader) :
    Owes s₀ own (s.logAll (entryEvents d hd)) := by
  obtain ⟨evs, htrace, hrun⟩ := h
  refine ⟨(EspLwext4.entryEvents d hd).reverse ++ evs, ?_, ?_⟩
  · rw [List.append_assoc, ← htrace]
    rfl
  have hnone : loans (EspLwext4.entryEvents d hd).reverse = [] := by
    refine List.filterMap_eq_nil_iff.mpr fun ev hev => ?_
    obtain ⟨f, n, rfl⟩ := mem_entryEvents (List.mem_reverse.mp hev)
    rfl
  unfold loans at hnone hrun ⊢
  rwa [List.filterMap_append, hnone]

theorem idle_validateEntries (h : Ext4ExtentHeader) : Idle (validateEntries inodeRef p h) :=
  ((still_validateEntriesLoop h _ _ _ _).idle).bind fun _ _ _ =>
    Triple.update fun s hs => hs.entryEvents (s.bytes p) h

theorem idle_validateSelectedEntry (h : Ext4ExtentHeader) :
    Idle (validateSelectedEntry inodeRef p h pos) := by
  refine .ite (fun _ => .raise _) fun _ => .ite (fun _ => ?_) fun _ => ?_
  · refine inert_loadExtent.idle.bind fun e => (Idle.failIf _ _).bind fun _ => .bind ?_ fun _ =>
      .bind ?_ fun _ => idle_checked _ _
    · exact .whenever (inert_loadExtent.idle.bind fun _ => .failIf _ _)
    · exact .whenever (inert_loadExtent.idle.bind fun _ => .failIf _ _)
  · refine inert_loadIndex.idle.bind fun e => (Idle.failIf _ _).bind fun _ => .bind ?_ fun _ =>
      .bind ?_ fun _ => idle_checked _ _
    · exact .whenever (inert_loadIndex.idle.bind fun _ => .failIf _ _)
    · exact .whenever (inert_loadIndex.idle.bind fun _ => .failIf _ _)

/-! ## Calls outside -/

theorem lends_callIo {c : IoCall} {B : Option Errno → Multiset ℕ}
    (h : ∀ r s, Owes s₀ own s → Owes s₀ (B r) (s.log (.io c r))) :
    Lends s₀ own (callIo inodeRef c) B F :=
  fun s hs => h (inodeRef.lwext4.io c s.trace) s hs

theorem idle_callIo {c : IoCall} (h : ∀ r, (Event.io c r).loan = none) :
    Idle (callIo inodeRef c) := fun _ _ => lends_callIo fun r _ hs => hs.log (h r)

/-- A call that hands out block `b` when it succeeds. -/
theorem lends_get {c : IoCall} (h : (Event.io c none).loan = some (.lend b))
    (h' : ∀ e, (Event.io c (some e)).loan = none) (hroom : own.card < 2) :
    Lends s₀ own (do check (← callIo inodeRef c)) (fun _ => b ::ₘ own) own := by
  refine Triple.bind (Q := fun r => Owes s₀ (if r = none then b ::ₘ own else own))
    (lends_callIo fun r s hs => ?_) fun r => ?_
  · cases r with
    | none => exact hs.lend h hroom
    | some e => exact hs.log (h' e)
  · cases r with
    | none => exact fun _ hs => hs
    | some e => exact fun _ hs => hs

theorem lends_nodeBlockGet (site : Site) (hroom : own.card < 2) :
    Lends s₀ own (nodeBlockGet inodeRef site b) (fun _ => b ::ₘ own) own :=
  lends_get rfl (fun _ => rfl) hroom

theorem lends_transBlockGetNoread (hroom : own.card < 2) :
    Lends s₀ own (transBlockGetNoread inodeRef b) (fun _ => b ::ₘ own) own :=
  lends_get rfl (fun _ => rfl) hroom

theorem lends_blockSet : Lends s₀ (b ::ₘ own) (blockSet inodeRef b) (fun _ => own) own :=
  Triple.bind (Q := fun _ => Owes s₀ own) (lends_callIo fun _ _ hs => hs.back rfl)
    fun r => (still_check r).idle s₀ own

/-- The only block on loan comes back. -/
theorem lends_blockSet_last : Lends s₀ {b} (blockSet inodeRef b) (fun _ => 0) 0 := lends_blockSet

theorem lends_nodeBlockPut : Lends s₀ (b ::ₘ own) (nodeBlockPut inodeRef b) (fun _ => own) own :=
  Triple.bind (lends_callIo fun _ _ hs => hs.log rfl) fun _ =>
    Triple.bind (Q := fun _ => Owes s₀ own) (lends_callIo fun _ _ hs => hs.back rfl)
      fun _ => (still_check _).idle s₀ own

theorem idle_ballocFreeBlock : Idle (ballocFreeBlock inodeRef b) :=
  (idle_callIo fun r => by cases r <;> rfl).bind fun r => (still_check r).idle

theorem idle_ballocFreeBlocks (first count : ℕ) : Idle (ballocFreeBlocks inodeRef first count) :=
  (idle_callIo fun r => by cases r <;> rfl).bind fun r => (still_check r).idle

theorem idle_ballocAllocBlock (goal : ℕ) : Idle (ballocAllocBlock inodeRef goal) := by
  intro s₀ own s hs
  have hlog (r : Except Errno ℕ) : Owes s₀ own (s.log (.ballocAllocBlock goal r)) := hs.log rfl
  cases hr : inodeRef.lwext4.ballocAllocBlock goal s.trace with
  | ok b =>
    have hrun : ballocAllocBlock inodeRef goal s = .ok b (s.log (.ballocAllocBlock goal (.ok b))) := by
      refine (bind_of_ok rfl).trans ((bind_of_ok rfl).trans ?_)
      rw [hr]
      rfl
    unfold wlp
    rw [hrun]
    exact hlog _
  | error e =>
    have hrun : ballocAllocBlock inodeRef goal s = .err e (s.log (.ballocAllocBlock goal (.error e))) := by
      refine (bind_of_ok rfl).trans ((bind_of_ok rfl).trans ?_)
      rw [hr]
      rfl
    unfold wlp
    rw [hrun]
    exact hlog _

/-! ## Searching -/

/-- The block held from an earlier step of a walk. -/
def heldLoan : Option ℕ → Multiset ℕ
  | none => 0
  | some b => {b}

theorem lends_releaseHeld (held : Option ℕ) :
    Lends s₀ (heldLoan held + own) (releaseHeld inodeRef held) (fun _ => own) own := by
  cases held with
  | none =>
      rw [heldLoan, zero_add]
      exact Idle.pure () s₀ own
  | some b =>
      rw [heldLoan, Multiset.singleton_add]
      exact lends_blockSet

theorem lends_releaseHeld_only (held : Option ℕ) :
    Lends s₀ (heldLoan held) (releaseHeld inodeRef held) (fun _ => 0) 0 := by
  have h : Lends s₀ (heldLoan held + 0) (releaseHeld inodeRef held) (fun _ => 0) 0 :=
    lends_releaseHeld held
  rwa [add_zero] at h

theorem card_heldLoan (held : Option ℕ) : (heldLoan held).card < 2 := by
  cases held with
  | none => exact Nat.zero_lt_two
  | some b => exact Nat.one_lt_two

/-- The descent hands the block it holds from one level to the next. -/
theorem lends_findExtentLoop {lblock : ℕ} (depth : ℕ) :
    ∀ (nodeData : Place) (h : Ext4ExtentHeader) (pblockOfNode : ℕ) (held : Option ℕ)
      (path : ExtentSearchPath),
      Lends s₀ (heldLoan held) (findExtentLoop inodeRef lblock depth nodeData h pblockOfNode held path)
        (fun r => heldLoan r.2.2.2.1) 0 := by
  induction depth with
  | zero => exact fun _ _ _ _ _ _ hs => hs
  | succ depth ih =>
      intro nodeData h pblockOfNode held path
      have hrelease : Lends s₀ (heldLoan held) (releaseHeld inodeRef held) (fun _ => 0) 0 :=
        lends_releaseHeld_only held
      refine ((inert_binsearchIdx h lblock).lends s₀ _ _).bind fun r => ?_
      cases r with
      | none => exact Triple.onError (S := Owes s₀ (heldLoan held)) Triple.raise hrelease
      | some pos =>
          refine Triple.bind ((idle_validateSelectedEntry h s₀ _).onError hrelease) fun _ => ?_
          refine Triple.bind (inert_loadIndex.lends s₀ _ _) fun index => ?_
          refine Triple.bind (inert_push.lends s₀ _ _) fun path => ?_
          refine Triple.bind ((lends_nodeBlockGet .findExtent (card_heldLoan held)).onError hrelease)
            fun _ => ?_
          refine Triple.bind (((still_verifyExtentBlockChecksum.idle s₀ _).onError
            lends_blockSet).onError hrelease) fun _ => ?_
          -- from here on the new block is the one held
          have hnext : indexGetPblock index ::ₘ heldLoan held =
              heldLoan held + heldLoan (some (indexGetPblock index)) := by
            rw [add_comm]
            rfl
          rw [hnext]
          refine Triple.bind (lends_releaseHeld held).attempt fun _ => ?_
          refine Triple.bind (inert_loadHeader.lends s₀ _ _) fun h => ?_
          refine Triple.bind (((still_validateHeader false h).idle s₀ _).onError lends_blockSet_last)
            fun _ => ?_
          refine .ite (fun _ => ?_) fun _ => ih _ _ _ _ _
          exact Triple.onError (S := Owes s₀ (heldLoan (some (indexGetPblock index)))) Triple.raise
            lends_blockSet_last

theorem lends_findExtentLeaf {lblock pblockOfNode : ℕ} (h : Ext4ExtentHeader) (held : Option ℕ) :
    Lends s₀ (heldLoan held) (findExtentLeaf inodeRef lblock p h pblockOfNode held path)
      (fun _ => 0) 0 := by
  have hrelease : Triple (Owes s₀ (heldLoan held)) (attempt (releaseHeld inodeRef held))
      (fun _ => Owes s₀ 0) (Owes s₀ 0) := (lends_releaseHeld_only held).attempt
  refine Triple.bind ((inert_binsearchExtent h lblock).lends s₀ _ _) fun r => .ite (fun _ => ?_) fun _ => ?_
  · refine Triple.bind ((idle_validateSelectedEntry h).attempt s₀ _ _) fun r =>
      Triple.bind hrelease fun _ => ?_
    cases r with
    | error e => exact Triple.raise
    | ok _ => exact inert_push.lends s₀ 0 0
  · exact Triple.bind hrelease fun _ => inert_push.lends s₀ 0 0

theorem settles_findExtent (lblock : ℕ) : Settles (findExtent inodeRef lblock) := by
  intro s₀
  refine Triple.bind (inert_loadHeader.lends s₀ 0 0) fun h => ?_
  refine Triple.bind ((still_validateHeader true h).idle s₀ 0) fun _ => ?_
  refine Triple.bind (idle_validateEntries h s₀ 0) fun _ => ?_
  refine Triple.bind (lends_findExtentLoop h.depth .root h 0 none _) fun r => ?_
  exact lends_findExtentLeaf _ _

/-! ## Neighbours -/

theorem card_zero : (0 : Multiset ℕ).card < 2 := Nat.zero_lt_two

theorem card_one (b : ℕ) : ({b} : Multiset ℕ).card < 2 := Nat.one_lt_two

/-- Get a block, read in it and release it. -/
theorem settles_readBlock {site : Site} {l : M α} (hl : Inert l) :
    Settles (do
      nodeBlockGet inodeRef site b
      let out ← l
      blockSet inodeRef b
      return out) := fun s₀ =>
  (lends_nodeBlockGet site card_zero).bind fun _ => Triple.bind (hl.lends s₀ _ _) fun _ =>
    lends_blockSet.bind fun _ => Idle.pure _ s₀ 0

theorem settles_nodeGetExtent : Settles (nodeGetExtent inodeRef node pos) :=
  .ite (fun _ => inert_loadExtent.idle.settles) fun _ => settles_readBlock inert_loadExtent

theorem settles_nodeGetIndex : Settles (nodeGetIndex inodeRef node pos) :=
  .ite (fun _ => inert_loadIndex.idle.settles) fun _ => settles_readBlock inert_loadIndex

theorem idle_acceptNode (pblock expectedDepth : ℕ) :
    Idle (acceptNode inodeRef pblock expectedDepth) :=
  still_verifyExtentBlockChecksum.idle.bind fun _ => inert_loadHeader.idle.bind fun h =>
    ((still_validateHeader false h).idle).bind fun _ => (Idle.failIf _ _).bind fun _ =>
      (idle_validateEntries h).bind fun _ => .pure h

/-- An acceptable node stays on loan. -/
theorem lends_leftmostNode (pblock expectedDepth : ℕ) :
    Lends s₀ 0 (leftmostNode inodeRef pblock expectedDepth) (fun _ => {pblock}) 0 := by
  refine (lends_nodeBlockGet _ card_zero).bind fun _ =>
    Triple.bind ((idle_acceptNode pblock expectedDepth s₀ _).onError lends_blockSet) fun h => ?_
  exact .ite (fun _ => lends_blockSet.bind fun _ => Triple.raise) fun _ _ hs => hs

theorem settles_leftmostExtentBelow (expectedDepth : ℕ) : ∀ start : Ext4ExtentIndex,
    Settles (leftmostExtentBelow inodeRef start expectedDepth) := by
  induction expectedDepth with
  | zero =>
      intro start s₀
      exact (lends_leftmostNode _ 0).bind fun _ => Triple.bind (inert_loadExtent.lends s₀ _ _) fun _ =>
        Triple.bind lends_blockSet fun _ => Idle.pure _ s₀ 0
  | succ expectedDepth ih =>
      intro start s₀
      exact (lends_leftmostNode _ _).bind fun _ => Triple.bind (inert_loadIndex.lends s₀ _ _) fun next =>
        Triple.bind lends_blockSet fun _ => ih next s₀

theorem settles_findNextExtentLoop (level : ℕ) : Settles (findNextExtentLoop inodeRef path level) := by
  induction level with
  | zero => exact .raise _
  | succ level ih =>
      refine inert_node.idle.settles.bind fun parent => .ite (fun _ => ?_) fun _ => ih
      exact settles_nodeGetIndex.bind fun _ => .ite (fun _ => .raise _) fun _ =>
        settles_leftmostExtentBelow _ _

theorem settles_findNextExtent : Settles (findNextExtent inodeRef path) :=
  inert_node.idle.settles.bind fun _ => .ite (fun _ => settles_nodeGetExtent) fun _ =>
    settles_findNextExtentLoop _

/-! ## Rewriting a node -/

/-- The block of a node that is not the root. -/
def nodeLoan (node : ExtentPathNode) : Multiset ℕ :=
  if node.pblockOfNode = 0 then 0 else {node.pblockOfNode}

theorem lends_getForWrite (site : Site) :
    Lends s₀ 0 (getForWrite inodeRef site node) (fun _ => nodeLoan node) 0 := by
  unfold nodeLoan
  refine .ite (fun h0 => ?_) fun h0 => ?_
  · rw [if_pos h0]
    exact fun _ hs => hs
  · rw [if_neg h0]
    exact lends_nodeBlockGet site card_zero

theorem lends_releaseNode :
    Lends s₀ (nodeLoan node) (releaseNode inodeRef node) (fun _ => 0) 0 := by
  unfold nodeLoan
  refine .ite (fun h0 => ?_) fun h0 => ?_
  · rw [if_pos h0]
    exact fun _ hs => hs
  · rw [if_neg h0]
    exact lends_blockSet_last

theorem lends_finishBlock : Lends s₀ {b} (finishBlock inodeRef b) (fun _ => 0) 0 :=
  Triple.bind (((still_setExtentBlockChecksum false).idle s₀ {b}).onError lends_blockSet_last)
    fun _ => lends_nodeBlockPut

theorem lends_finishNode : Lends s₀ (nodeLoan node) (finishNode inodeRef node) (fun _ => 0) 0 := by
  unfold nodeLoan
  refine .ite (fun h0 => ?_) fun h0 => ?_
  · rw [if_pos h0]
    exact inert_setInodeDirty.lends s₀ 0 0
  · rw [if_neg h0]
    exact lends_finishBlock

/-- Get a node for writing, change it and finish it. -/
theorem settles_rewriteNode {site : Site} (hm : Inert m) {f : α → M β} (hf : ∀ a, Settles (f a)) :
    Settles (do
      getForWrite inodeRef site node
      let a ← m
      finishNode inodeRef node
      f a) := fun s₀ =>
  (lends_getForWrite site).bind fun _ => Triple.bind (hm.lends s₀ _ _) fun a =>
    lends_finishNode.bind fun _ => hf a s₀

theorem settles_mergeExtent {leftExt rightExt : Ext4Extent} :
    Settles (mergeExtent inodeRef path leftExt rightExt pos) := by
  refine inert_node.idle.settles.bind fun leaf => .ite (fun _ => ?_) fun _ => .pure _
  intro s₀
  exact (lends_nodeBlockGet _ card_zero).bind fun _ => Triple.bind ((inert_storeExtent _).lends s₀ _ _)
    fun _ => Triple.bind lends_finishBlock fun _ => Idle.pure _ s₀ 0

theorem idle_recheckNode : Idle (recheckNode inodeRef node) :=
  inert_loadHeader.idle.bind fun h => ((still_validateHeader false h).idle).bind fun _ =>
    (idle_validateEntries h).bind fun _ => .failIf _ _

theorem settles_insertIndexEntry {firstBlock pblock : ℕ} :
    Settles (insertIndexEntry inodeRef path level firstBlock pblock) := by
  refine inert_node.idle.settles.bind fun node => .ite (fun _ => .raise _) fun _ => ?_
  intro s₀
  refine (lends_getForWrite _).bind fun _ =>
    Triple.bind (Q := fun _ => Owes s₀ (nodeLoan node)) ?_ fun _ => ?_
  · exact .ite (fun _ => (idle_recheckNode s₀ _).onError lends_releaseNode)
      fun _ => (Inert.pure ()).lends s₀ _ _
  refine Triple.bind ((inert_entryInsertPosLoop _ _).lends s₀ _ _) fun pos => ?_
  refine Triple.bind (inert_keyBefore.lends s₀ _ _) fun dup => .ite (fun _ => ?_) fun _ => ?_
  · exact Triple.bind lends_releaseNode.attempt fun _ => Triple.raise
  · exact Triple.bind ((Inert.whenever inert_moveEntries).lends s₀ _ _) fun _ =>
      Triple.bind ((inert_storeIndex _).lends s₀ _ _) fun _ =>
      Triple.bind ((inert_storeHeader _).lends s₀ _ _) fun _ => lends_finishNode

/-! ## Splitting and growing -/

theorem settles_freeNewMetadataBlock (e : Errno) :
    Settles (freeNewMetadataBlock inodeRef b e : M α) :=
  idle_ballocFreeBlock.attempted.settles.bind fun _ => .raise e

/-- Giving a new block back releases the one block still on loan. -/
theorem lends_abandonNewBlock {block : ℕ} (e : Errno) {B : α → Multiset ℕ} :
    Lends s₀ {b} (abandonNewBlock inodeRef (blockSet inodeRef b) block e : M α) B 0 :=
  Triple.bind (Triple.attempt lends_blockSet_last) fun _ =>
    Triple.bind (idle_ballocFreeBlock.attempt s₀ 0 0) fun _ => Triple.raise

theorem settles_shortenNode {mid : ℕ} : Settles (shortenNode inodeRef node mid) := fun s₀ =>
  (lends_nodeBlockGet _ card_zero).bind fun _ => Triple.bind ((inert_storeHeader _).lends s₀ _ _) fun _ =>
    Triple.bind (inert_clear.lends s₀ _ _) fun _ => lends_finishBlock

/-- The source is on loan while the new block is filled; it comes back before the new
block does and is got again to be shortened. -/
theorem settles_splitFullNode : Settles (splitFullNode inodeRef path level) := by
  refine inert_node.idle.settles.bind fun node => .ite (fun _ => .raise _) fun _ => ?_
  refine inert_node.idle.settles.bind fun parent => .ite (fun _ => .raise _) fun _ => ?_
  intro s₀
  refine (lends_nodeBlockGet _ card_zero).bind fun _ => ?_
  refine Triple.bind ((idle_recheckNode s₀ _).onError lends_blockSet_last) fun _ => ?_
  refine Triple.bind ((idle_ballocAllocBlock _ s₀ _).onError lends_blockSet_last) fun b' => ?_
  refine Triple.bind ((lends_transBlockGetNoread (card_one _)).orElse fun e =>
    lends_abandonNewBlock e) fun _ => ?_
  refine Triple.bind (inert_clear.lends s₀ _ _) fun _ => ?_
  refine Triple.bind (inert_fillNewNode.lends s₀ _ _) fun _ => ?_
  refine Triple.bind (inert_loadKey.lends s₀ _ _) fun firstRight => ?_
  have hswap : b' ::ₘ {node.pblockOfNode} = node.pblockOfNode ::ₘ ({b'} : Multiset ℕ) :=
    Multiset.cons_swap b' node.pblockOfNode 0
  dsimp only
  rw [hswap]
  refine Triple.bind (Triple.orElse lends_blockSet fun e => lends_abandonNewBlock e) fun _ => ?_
  refine Triple.bind (((still_setExtentBlockChecksum false).idle s₀ _).orElse fun e =>
    lends_abandonNewBlock e) fun _ => ?_
  refine Triple.bind (Triple.orElse lends_nodeBlockPut fun e =>
    settles_freeNewMetadataBlock e s₀) fun _ => ?_
  refine Triple.bind ((settles_insertIndexEntry s₀).orElse fun e =>
    settles_freeNewMetadataBlock e s₀) fun _ => ?_
  exact settles_shortenNode s₀

theorem settles_growIndepth : Settles (growIndepth inodeRef) := by
  refine inert_loadHeader.idle.settles.bind fun h => .ite (fun _ => .raise _) fun _ => ?_
  refine (idle_ballocAllocBlock _).settles.bind fun b' => ?_
  intro s₀
  refine Triple.bind ((lends_transBlockGetNoread card_zero).onError (idle_ballocFreeBlock s₀ 0))
    fun _ => ?_
  refine Triple.bind (inert_clear.lends s₀ _ _) fun _ => ?_
  refine Triple.bind (inert_firstLogicalBlockOf.lends s₀ _ _) fun k => ?_
  refine Triple.bind (inert_fillNewNode.lends s₀ _ _) fun _ => ?_
  refine Triple.bind (((still_setExtentBlockChecksum false).idle s₀ _).orElse fun e =>
    lends_abandonNewBlock e) fun _ => ?_
  refine Triple.bind (Triple.onError lends_nodeBlockPut (idle_ballocFreeBlock s₀ 0)) fun _ => ?_
  exact Triple.bind (inert_loadHeader.lends s₀ 0 0) fun _ => Triple.bind ((inert_storeHeader _).lends s₀ 0 0)
    fun _ => Triple.bind (inert_clear.lends s₀ 0 0) fun _ => Triple.bind ((inert_storeIndex _).lends s₀ 0 0)
    fun _ => inert_setInodeDirty.lends s₀ 0 0

theorem settles_ensureInsertRoomLoop {firstBlock : ℕ} (attempts : ℕ) :
    Settles (ensureInsertRoomLoop inodeRef firstBlock attempts) := by
  induction attempts with
  | zero => exact .raise _
  | succ attempts ih =>
      refine (settles_findExtent firstBlock).bind fun path => inert_node.idle.settles.bind fun root =>
        .ite (fun _ => settles_growIndepth.bind fun _ => ih) fun _ => ?_
      refine (inert_firstFullLevel _ _).idle.settles.bind fun r => ?_
      cases r with
      | none => exact .pure path
      | some level => exact settles_splitFullNode.bind fun _ => ih

/-! ## Inserting an extent -/

theorem settles_writeIndexAt {x : Ext4ExtentIndex} : Settles (writeIndexAt inodeRef node pos x) :=
  fun s₀ => (lends_getForWrite _).bind fun _ => Triple.bind ((inert_storeIndex x).lends s₀ _ _)
    fun _ => lends_finishNode

theorem settles_correctIndexes {key : ℕ} (childLevel : ℕ) :
    Settles (correctIndexes inodeRef path key childLevel) := by
  induction childLevel with
  | zero => exact .pure ()
  | succ level ih =>
      exact inert_node.idle.settles.bind fun _ => settles_writeIndexAt.bind fun _ =>
        .ite (fun _ => .pure ()) fun _ => ih

theorem inert_placeExtent {e : Ext4Extent} : Inert (placeExtent inodeRef node pos e) :=
  (Inert.whenever inert_moveEntries).bind fun _ => (inert_storeExtent e).bind fun _ =>
    inert_storeHeader _

section Reinsert

variable {reinsert : ℕ → Ext4Extent → M Unit} (hre : ∀ k e, Settles (reinsert k e))

include hre

theorem settles_insertNewExtent {e : Ext4Extent} :
    Settles (insertNewExtent inodeRef reinsert path e) := by
  refine inert_node.idle.settles.bind fun node => .ite (fun _ => ?_) fun _ => ?_
  · refine .ite (fun _ => ?_) fun _ => .ite (fun _ => ?_) fun _ => ?_
    · exact ((inert_storeExtent e).bind fun _ => (inert_storeHeader _).bind fun _ =>
        inert_setInodeDirty).idle.settles
    · exact settles_growIndepth.bind fun _ => hre _ e
    · exact (inert_placeExtent.bind fun _ => inert_setInodeDirty).idle.settles
  · intro s₀
    refine (lends_nodeBlockGet _ card_zero).bind fun _ => Triple.bind (inert_placeExtent.lends s₀ _ _)
      fun _ => Triple.bind lends_finishBlock fun _ => ?_
    exact .ite (fun _ => settles_correctIndexes _ s₀) fun _ => Idle.pure () s₀ 0

omit hre in
theorem inert_storeMergedInRoot {e : Ext4Extent} : Inert (storeMergedInRoot inodeRef node pos e) :=
  .whenever ((inert_storeExtent e).bind fun _ => inert_setInodeDirty)

omit hre in
theorem settles_mergeIf {c : Prop} [Decidable c] {pair : Ext4Extent → Ext4Extent × Ext4Extent} :
    Settles (mergeIf inodeRef path node c pos pair) := by
  refine .ite (fun _ => settles_nodeGetExtent.bind fun e => ?_) fun _ => .pure _
  refine .ite (fun _ => settles_mergeExtent.bind fun _ => ?_) fun _ => .pure _
  exact inert_storeMergedInRoot.idle.settles.bind fun _ => .pure _

theorem settles_insertWithRoom {firstBlock : ℕ} {e : Ext4Extent} :
    Settles (insertWithRoom inodeRef reinsert path node firstBlock e) := by
  refine .ite (fun _ => settles_insertNewExtent hre) fun _ => ?_
  refine (settles_ensureInsertRoomLoop _).bind fun path => inert_node.idle.settles.bind fun leaf => ?_
  exact .ite (fun _ => .raise _) fun _ => settles_insertNewExtent hre

theorem settles_insertExtentBody {firstBlock : ℕ} {e : Ext4Extent} :
    Settles (insertExtentBody inodeRef reinsert firstBlock e) := by
  refine (settles_findExtent firstBlock).bind fun path => inert_node.idle.settles.bind fun leaf => ?_
  refine .ite (fun _ => settles_insertNewExtent hre) fun _ =>
    .ite (fun _ => ?_) fun _ => settles_insertWithRoom hre
  refine .ite (fun _ => .raise _) fun _ => .ite (fun _ => ?_) fun _ => ?_
  · exact settles_mergeExtent.bind fun _ => inert_storeMergedInRoot.idle.settles
  · refine Settles.bind ?_ fun merged => .ite (fun _ => .pure ()) fun _ => settles_insertWithRoom hre
    exact settles_mergeIf.bind fun r => .ite (fun _ => .pure _) fun _ => settles_mergeIf

end Reinsert

theorem settles_insertExtent (calls : ℕ) : ∀ firstBlock e,
    Settles (insertExtent inodeRef calls firstBlock e) := by
  induction calls with
  | zero => exact fun _ _ => .crash _
  | succ calls ih => exact fun _ _ => settles_insertExtentBody ih

/-! ## Removing -/

theorem inert_dropIndex : Inert (dropIndex inodeRef node) := by
  unfold dropIndex
  dsimp only
  generalize sub32 node.header.entriesCount 1 = last
  generalize u16 last = left
  generalize sub32 (sub32 node.header.entriesCount node.position) 1 = moved
  refine Inert.bind (Inert.whenever ?_) fun _ => ?_
  · exact inert_moveEntries.bind fun _ => inert_clear
  · exact (inert_storeHeader _).bind fun _ => .ite (fun _ => inert_loadKey) fun _ => .pure 0

theorem inert_collapseRoot : Inert (collapseRoot inodeRef) :=
  inert_loadHeader.bind fun _ => (inert_storeHeader _).bind fun _ => inert_setInodeDirty

theorem settles_removeIndexStep {depth : ℕ} {removeParent : M Unit} (h : Settles removeParent) :
    Settles (removeIndexStep inodeRef path depth removeParent) := by
  unfold removeIndexStep
  refine inert_node.idle.settles.bind fun node => ?_
  generalize u16 (sub32 node.header.entriesCount 1) = left
  refine settles_rewriteNode inert_dropIndex fun k => ?_
  refine (idle_ballocFreeBlocks _ _).settles.bind fun _ => ?_
  refine (Settles.whenever (settles_correctIndexes depth)).bind fun _ => ?_
  exact .ite (fun _ => .ite (fun _ => inert_collapseRoot.idle.settles) fun _ => h) fun _ => .pure ()

theorem settles_removeIndex (depth : ℕ) : Settles (removeIndex inodeRef path depth) := by
  induction depth with
  | zero => exact settles_removeIndexStep (.crash _)
  | succ depth ih => exact settles_removeIndexStep ih

/-- The loop of `remove_leaf` releases the leaf when it fails. -/
theorem lends_removeLeafLoop {first last : ℕ} (n : ℕ) : ∀ i write newEntryCount,
    Lends s₀ (nodeLoan node) (removeLeafLoop inodeRef p node first last n i write newEntryCount)
      (fun _ => nodeLoan node) 0 := by
  induction n with
  | zero => exact fun _ _ _ _ hs => hs
  | succ n ih =>
      intro i write newEntryCount
      refine Triple.bind (inert_loadExtent.lends s₀ _ _) fun e => .ite (fun _ _ hs => hs) fun _ => ?_
      refine .ite (fun _ => ?_) fun _ => ?_
      · exact Triple.bind ((inert_storeExtent e).lends s₀ _ _) fun _ => ih _ _ _
      · refine Triple.bind ((idle_ballocFreeBlocks _ _ s₀ _).onError lends_releaseNode) fun _ => ?_
        split
        · exact ih _ _ _
        · exact Triple.bind ((inert_storeExtent _).lends s₀ _ _) fun _ => ih _ _ _

theorem lends_rewriteLeaf {first last : ℕ} :
    Lends s₀ (nodeLoan node) (rewriteLeaf inodeRef node first last) (fun _ => nodeLoan node) 0 := by
  refine Triple.bind (lends_removeLeafLoop _ _ _ _) fun r => ?_
  refine Triple.bind ((Inert.whenever inert_moveEntries).lends s₀ _ _) fun _ => ?_
  refine Triple.bind ((inert_storeHeader _).lends s₀ _ _) fun _ => .ite (fun _ => ?_) fun _ _ hs => hs
  exact Triple.bind (inert_loadKey.lends s₀ _ _) fun _ _ hs => hs

theorem settles_removeLeaf {first last : ℕ} : Settles (removeLeaf inodeRef path first last) := by
  refine inert_node.idle.settles.bind fun leaf => ?_
  intro s₀
  refine (lends_getForWrite _).bind fun _ => Triple.bind lends_rewriteLeaf fun r =>
    lends_finishNode.bind fun _ => ?_
  refine Triple.bind (Settles.whenever (settles_correctIndexes _) s₀) fun _ => ?_
  exact .ite (fun _ => .ite (fun _ => Idle.pure () s₀ 0) fun _ => settles_removeIndex _ s₀)
    fun _ => Idle.pure () s₀ 0

theorem settles_removeMiddleOfExtent {first last : ℕ} :
    Settles (removeMiddleOfExtent inodeRef first last) := by
  refine (settles_ensureInsertRoomLoop _).bind fun path => inert_node.idle.settles.bind fun leaf => ?_
  refine .ite (fun _ => .raise _) fun _ => ?_
  exact settles_rewriteNode inert_replaceByTwo fun _ => (idle_ballocFreeBlocks _ _).settles

/-! ## The hooks -/

theorem settles_gapToNext {iblock : ℕ} : Settles (gapToNext inodeRef path node iblock) := by
  refine .ite (fun _ => .ite (fun _ => .pure _) fun _ => .ite (fun _ => ?_) fun _ => ?_)
    fun _ => .pure _
  · exact settles_nodeGetExtent.bind fun _ => .pure _
  · refine settles_findNextExtent.attempt.bind fun r => ?_
    split
    · exact .ite (fun _ => .raise _) fun _ => .pure _
    · exact .pure _
    · exact .raise _

theorem idle_freeRun {first count : ℕ} (e : Errno) : Idle (freeRun inodeRef first count e : M α) :=
  (idle_ballocFreeBlocks _ _).bind fun _ => .raise e

theorem settles_allocateRun (n : ℕ) : ∀ goal first count,
    Settles (allocateRun inodeRef n goal first count) := by
  induction n with
  | zero => exact fun _ _ _ => .pure _
  | succ n ih =>
      intro goal first count
      refine (idle_ballocAllocBlock goal).attempted.settles.bind fun r => ?_
      cases r with
      | error e =>
          exact .ite (fun _ => .raise _) fun _ => .ite (fun _ => (idle_freeRun e).settles)
            fun _ => .pure _
      | ok candidate =>
          refine .ite (fun _ => ih _ _ _) fun _ => .ite (fun _ => ih _ _ _) fun _ => ?_
          exact (idle_ballocFreeBlock.settles.orElse fun e => (idle_freeRun e).settles).bind
            fun _ => .pure _

theorem idle_requireJournaledMutation : Idle (requireJournaledMutation inodeRef) :=
  .ite (fun _ => .pure ()) fun _ => .raise _

theorem settles_createBlocks {iblock maxBlocks : ℕ} :
    Settles (createBlocks inodeRef path node iblock maxBlocks) := by
  refine idle_requireJournaledMutation.settles.bind fun _ => settles_gapToNext.bind fun gap => ?_
  refine (Idle.failIf _ _).settles.bind fun _ => (settles_allocateRun _ _ _ _).bind fun r => ?_
  refine (Idle.failIf _ _).settles.bind fun _ => Settles.bind ?_ fun _ => .pure _
  exact (settles_insertExtent 8 _ _).orElse fun e => (idle_freeRun e).settles

theorem settles_ext4ExtentGetBlocks (iblock maxBlocks : UInt32) (create : Bool) :
    Settles (ext4ExtentGetBlocks inodeRef iblock maxBlocks create) := by
  refine (settles_findExtent _).bind fun path => inert_node.idle.settles.bind fun leaf => ?_
  refine .ite (fun _ => .ite (fun _ => ?_) fun _ => .pure _) fun _ =>
    .ite (fun _ => .pure _) fun _ => settles_createBlocks
  exact .ite (fun _ => .raise _) fun _ => .pure _

theorem settles_removeSpaceStep (first last : ℕ) :
    Settles (removeSpaceStep inodeRef first last) := by
  refine (settles_findExtent first).bind fun path => inert_node.idle.settles.bind fun leaf => ?_
  refine .ite (fun _ => .pure _) fun _ => .ite (fun _ => ?_) fun _ => .ite (fun _ => ?_) fun _ => ?_
  · exact settles_removeMiddleOfExtent.bind fun _ => .pure _
  · refine settles_findNextExtent.attempt.bind fun r => ?_
    split
    · exact .pure _
    · exact .raise _
    · exact .pure _
  · exact settles_removeLeaf.bind fun _ => .ite (fun _ => .pure _) fun _ => .pure _

theorem settles_removeSpaceLoop {last : ℕ} (fuel : ℕ) : ∀ first,
    Settles (removeSpaceLoop inodeRef last fuel first) := by
  induction fuel with
  | zero => exact fun _ => .crash _
  | succ fuel ih =>
      intro first
      refine .ite (fun _ => (settles_removeSpaceStep first last).bind fun r => ?_) fun _ => .pure ()
      cases r with
      | none => exact .pure ()
      | some next => exact ih next

theorem settles_ext4ExtentRemoveSpace (fuel : ℕ) (first last : UInt32) :
    Settles (ext4ExtentRemoveSpace inodeRef fuel first last) :=
  idle_requireJournaledMutation.settles.bind fun _ => settles_removeSpaceLoop fuel _

/-! ## Every block comes back once -/

/-- Between `s` and `s'` blocks were got and released in order, at most two of them held at
a time, none is held at the end, and each was released as often as it was got. -/
structure Released (s s' : St) : Prop where
  orderly : ∃ evs, s'.trace = evs ++ s.trace ∧ Orderly 2 (loans evs) ∧ onLoan (loans evs) = 0
  once : ∀ evs, s'.trace = evs ++ s.trace → ∀ b,
    (loans evs).count (.lend b) = (loans evs).count (.back b)

theorem Owes.start (s : St) : Owes s 0 s := ⟨[], rfl, trivial, rfl⟩

theorem Owes.released (h : Owes s 0 s') : Released s s' := by
  refine ⟨h, fun evs hevs b => ?_⟩
  obtain ⟨evs', htrace, horderly, hnone⟩ := h
  obtain rfl : evs = evs' := List.append_cancel_right (hevs.symm.trans htrace)
  rw [horderly.count b, hnone, Multiset.count_zero, Nat.add_zero]

end Lemmas

/-- **Every block is released once.** Whatever the volume holds and whatever the block layer
and the allocator answer: `ext4_extent_get_blocks` ends with every block it got released, once,
and never holds more than two; so does every call of `ext4_extent_remove_space` that ends. -/
theorem blocks_released (inodeRef : InodeRef) (s : St) :
    (∀ (iblock maxBlocks : UInt32) (create : Bool),
      wp (ext4ExtentGetBlocks inodeRef iblock maxBlocks create)
        (fun _ s' => Released s s') (fun _ s' => Released s s') s) ∧
    ∀ (fuel : ℕ) (first last : UInt32),
      wlp (ext4ExtentRemoveSpace inodeRef fuel first last)
        (fun _ s' => Released s s') (fun _ s' => Released s s') s := by
  constructor
  · intro iblock maxBlocks create
    have hwlp : wlp (ext4ExtentGetBlocks inodeRef iblock maxBlocks create)
        (fun _ => Owes s 0) (fun _ => Owes s 0) s :=
      settles_ext4ExtentGetBlocks iblock maxBlocks create s s (.start s)
    refine wp_mono (wp_of_wlp hwlp (safe_ext4ExtentGetBlocks iblock maxBlocks create s)) ?_ ?_
    · exact fun _ _ h => h.released
    · exact fun _ _ h => h.released
  · intro fuel first last
    refine wlp_mono (settles_ext4ExtentRemoveSpace fuel first last s s (.start s)) ?_ ?_
    · exact fun _ _ h => h.released
    · exact fun _ _ h => h.released

end EspLwext4
