import EspLwext4.Extent.Trim

/-!
# Parts that call nothing

A large part of the port only looks into the buffers it holds and changes them. Whatever is
said of the log of outside calls stands across these parts.
-/

namespace EspLwext4

open Prog

variable (inodeRef : InodeRef)

/-- `I` speaks of the log only. -/
def OfTrace (I : St → Prop) : Prop := ∀ s s', s'.trace = s.trace → I s → I s'

/-- `m` logs nothing, nor does it fail. -/
def Inert {α : Type} (m : M α) : Prop := ∀ I F, OfTrace I → Triple I m (fun _ => I) F

/-- `m` logs nothing. -/
def Still {α : Type} (m : M α) : Prop := ∀ I, OfTrace I → Triple I m (fun _ => I) I

section Lemmas

variable {inodeRef} {α β : Type} {m : M α} {p q : Place} {b off len pos n level : ℕ}
variable {node : ExtentPathNode} {path : ExtentSearchPath}

theorem Inert.still (h : Inert m) : Still m := fun I hI => h I I hI

theorem Inert.pure (a : α) : Inert (Pure.pure a : M α) := fun _ _ _ _ hs => hs

theorem Inert.crash (x : Fault) : Inert (Prog.crash x : M α) := fun _ _ _ => Triple.crash

theorem Inert.bind {f : α → M β} (h : Inert m) (h' : ∀ a, Inert (f a)) : Inert (m >>= f) :=
  fun I F hI => (h I F hI).bind fun a => h' a I F hI

theorem Inert.update {f : St → St} (h : ∀ s, (f s).trace = s.trace) :
    Inert (Prog.update f : M Unit) := fun _ _ hI => Triple.update fun s => hI s _ (h s)

theorem Inert.getState : Inert (Prog.getState : M St) := fun _ _ _ => Triple.getState fun _ h => h

theorem Inert.ite {c : Prop} [Decidable c] {k : M α} (h : c → Inert m) (h' : ¬ c → Inert k) :
    Inert (if c then m else k) :=
  fun I F hI => .ite (fun hc => h hc I F hI) fun hc => h' hc I F hI

theorem Inert.whenever {c : Prop} [Decidable c] {k : M Unit} (h : Inert k) :
    Inert (Prog.whenever c k) := .ite (fun _ => h) fun _ => .pure ()

theorem Still.pure (a : α) : Still (Pure.pure a : M α) := (Inert.pure a).still

theorem Still.raise (e : Errno) : Still (Prog.raise e : M α) := fun _ _ => Triple.raise

theorem Still.bind {f : α → M β} (h : Still m) (h' : ∀ a, Still (f a)) : Still (m >>= f) :=
  fun I hI => (h I hI).bind fun a => h' a I hI

theorem Still.ite {c : Prop} [Decidable c] {k : M α} (h : c → Still m) (h' : ¬ c → Still k) :
    Still (if c then m else k) := fun I hI => .ite (fun hc => h hc I hI) fun hc => h' hc I hI

theorem Still.whenever {c : Prop} [Decidable c] {k : M Unit} (h : Still k) :
    Still (Prog.whenever c k) := .ite (fun _ => h) fun _ => .pure ()

theorem Still.failIf (c : Prop) [Decidable c] (e : Errno) : Still (Prog.failIf c e : M Unit) :=
  .ite (fun _ => .raise e) fun _ => .pure ()

/-! ## Reading and writing a node -/

theorem inert_access : Inert (access inodeRef p off len) :=
  .ite (fun _ => .pure ()) fun _ => .crash _

theorem inert_peek (f : Bytes → α) : Inert (peek inodeRef p off len f) :=
  inert_access.bind fun _ => Inert.getState.bind fun _ => .pure _

theorem inert_poke (f : Bytes → Bytes) : Inert (poke inodeRef p off len f) :=
  inert_access.bind fun _ => .update fun _ => rfl

theorem inert_loadHeader : Inert (loadHeader inodeRef p) := inert_peek _

theorem inert_storeHeader (h : Ext4ExtentHeader) : Inert (storeHeader inodeRef p h) := inert_poke _

theorem inert_loadExtent : Inert (loadExtent inodeRef p pos) := inert_peek _

theorem inert_storeExtent (e : Ext4Extent) : Inert (storeExtent inodeRef p pos e) := inert_poke _

theorem inert_loadIndex : Inert (loadIndex inodeRef p pos) := inert_peek _

theorem inert_storeIndex (x : Ext4ExtentIndex) : Inert (storeIndex inodeRef p pos x) := inert_poke _

theorem inert_loadKey : Inert (loadKey inodeRef p pos) := inert_peek _

theorem inert_clear : Inert (clear inodeRef p off len) := inert_poke _

theorem inert_moveEntries {dst src : ℕ} : Inert (moveEntries inodeRef p dst src n) :=
  inert_access.bind fun _ => inert_poke _

theorem inert_copyEntries {dst src : ℕ} : Inert (copyEntries inodeRef p dst q src n) :=
  inert_access.bind fun _ => Inert.getState.bind fun _ => inert_poke _

theorem inert_setInodeDirty : Inert setInodeDirty := .update fun _ => rfl

theorem inert_node : Inert (path.node level) := by
  unfold ExtentSearchPath.node
  cases path.path[level]? with
  | none => exact .crash _
  | some node => exact .pure node

theorem inert_push : Inert (path.push node) := .ite (fun _ => .pure _) fun _ => .crash _

theorem inert_binsearchExtentLoop {lblock : ℕ} (fuel : ℕ) : ∀ l r,
    Inert (binsearchExtentLoop inodeRef p lblock fuel l r) := by
  induction fuel with
  | zero => exact fun _ _ => .ite (fun _ => .crash _) fun _ => .pure _
  | succ fuel ih =>
      intro l r
      exact .ite (fun _ => inert_loadExtent.bind fun e => .ite (fun _ => ih _ _) fun _ => ih _ _)
        fun _ => .pure _

theorem inert_binsearchExtent (h : Ext4ExtentHeader) (lblock : ℕ) :
    Inert (binsearchExtent inodeRef p h lblock) := by
  refine .ite (fun _ => inert_loadExtent.bind fun _ => .pure _) fun _ => ?_
  exact (inert_binsearchExtentLoop _ _ _).bind fun l => inert_loadExtent.bind fun _ => .pure _

theorem inert_binsearchIdxLoop {lblock : ℕ} (fuel : ℕ) : ∀ l r,
    Inert (binsearchIdxLoop inodeRef p lblock fuel l r) := by
  induction fuel with
  | zero => exact fun _ _ => .ite (fun _ => .crash _) fun _ => .pure _
  | succ fuel ih =>
      intro l r
      refine .ite (fun _ => inert_loadIndex.bind fun x => ?_) fun _ => .pure _
      exact .ite (fun _ => .ite (fun _ => .pure _) fun _ => ih _ _) fun _ => ih _ _

theorem inert_binsearchIdx (h : Ext4ExtentHeader) (lblock : ℕ) :
    Inert (binsearchIdx inodeRef p h lblock) := by
  refine .ite (fun _ => .pure _) fun _ => (inert_binsearchIdxLoop _ _ _).bind fun l => ?_
  exact .ite (fun _ => .pure _) fun _ => .pure _

theorem inert_entryInsertPosLoop {firstBlock : ℕ} (n : ℕ) : ∀ pos,
    Inert (entryInsertPosLoop inodeRef p firstBlock n pos) := by
  induction n with
  | zero => exact fun _ => .pure _
  | succ n ih =>
      exact fun pos => inert_loadKey.bind fun key => .ite (fun _ => .pure _) fun _ => ih _

theorem inert_keyBefore {firstBlock : ℕ} : Inert (keyBefore inodeRef p pos firstBlock) :=
  .ite (fun _ => inert_loadKey.bind fun _ => .pure _) fun _ => .pure _

theorem inert_fillNewNode {h : Ext4ExtentHeader} {src : ℕ} :
    Inert (fillNewNode inodeRef b h q src n) :=
  (inert_storeHeader h).bind fun _ => inert_copyEntries

theorem inert_firstLogicalBlockOf : Inert (firstLogicalBlockOf inodeRef n) :=
  .ite (fun _ => inert_loadExtent.bind fun _ => .pure _) fun _ => .pure _

theorem inert_firstFullLevel (n : ℕ) : ∀ level, Inert (firstFullLevel path n level) := by
  induction n with
  | zero => exact fun _ => .pure _
  | succ n ih =>
      exact fun level => inert_node.bind fun _ => .ite (fun _ => .pure _) fun _ => ih _

theorem inert_replaceByTwo {pre suffix : Ext4Extent} :
    Inert (replaceByTwo inodeRef node pre suffix) :=
  (Inert.whenever inert_moveEntries).bind fun _ => (inert_storeExtent _).bind fun _ =>
    (inert_storeExtent _).bind fun _ => inert_storeHeader _

/-! ## Checks -/

theorem still_check (r : Option Errno) : Still (check r) := by
  cases r with
  | none => exact .pure ()
  | some e => exact .raise e

theorem still_validateHeader (isRoot : Bool) (h : Ext4ExtentHeader) :
    Still (validateHeader inodeRef isRoot h) :=
  .ite (fun _ => .raise _) fun _ => .ite (fun _ => .raise _) fun _ => .pure ()

theorem still_validateEntriesLoop (h : Ext4ExtentHeader) (n : ℕ) : ∀ i previousEnd previousKey,
    Still (validateEntriesLoop inodeRef p h n i previousEnd previousKey) := by
  induction n with
  | zero => exact fun _ _ _ => .pure ()
  | succ n ih =>
      intro i previousEnd previousKey
      refine .ite (fun _ => inert_loadExtent.still.bind fun e => ?_)
        fun _ => inert_loadIndex.still.bind fun x => ?_
      · exact .ite (fun _ => .raise _) fun _ => .ite (fun _ => .raise _) fun _ => ih _ _ _
      · exact .ite (fun _ => .raise _) fun _ => ih _ _ _

theorem still_verifyExtentBlockChecksum : Still (verifyExtentBlockChecksum inodeRef p) := by
  refine .ite (fun _ => .pure ()) fun _ => inert_loadHeader.still.bind fun h => ?_
  refine .ite (fun _ => .raise _) fun _ => .ite (fun _ => .raise _) fun _ => ?_
  exact (inert_peek _).still.bind fun _ => (inert_peek _).still.bind fun _ =>
    .ite (fun _ => .pure ()) fun _ => .raise _

theorem still_setExtentBlockChecksum (isRoot : Bool) :
    Still (setExtentBlockChecksum inodeRef p isRoot) := by
  refine .ite (fun _ => .pure ()) fun _ => .ite (fun _ => .pure ()) fun _ =>
    inert_loadHeader.still.bind fun h => ?_
  refine .ite (fun _ => .raise _) fun _ => .ite (fun _ => .raise _) fun _ => ?_
  exact (inert_peek _).still.bind fun _ => (inert_poke _).still

end Lemmas

end EspLwext4
