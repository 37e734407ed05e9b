import EspLwext4.Port.FileLaws

/-!
# Appending

A write through an `O_APPEND` handle reads the size of the inode under the lock,
stores it in the handle and seeks there before it writes. So whatever the handle
had cached, the bytes go to the end the file has at that moment.
-/

namespace EspLwext4.Port

open Prog Runs

section Adapter

variable {σ D : Type} {env : Env σ D} {data : σ → ℕ → List UInt8}

/-! ## Work on an open slot -/

section Slot

variable {st : MountSt σ D}

/-- What `lock`, `file_get` and the access check leave to the work on the file. -/
theorem FileLaws.wp_onOpenFile (hL : FileLaws env data) {α : Type} {fd : ℤ}
    {forbidden : Option AccMode} {m : GrowBuffer → EspFile → Call (FileSt σ) α}
    {Q : α → MountSt σ D → Prop} {E : Errno → MountSt σ D → Prop}
    (he : ∀ e fs, data fs = data st.fs → E e ⟨fs, st.ctx⟩)
    (h : ∀ fs, data fs = data st.fs → st.ctx.usedAt fd.toNat = true →
      some (st.ctx.file fd.toNat).flags.accMode ≠ forbidden →
      wp (m st.ctx.growBuffer (st.ctx.file fd.toNat))
        (fun a fst => Q a ⟨fst.fs, st.ctx.setFile fd.toNat
          { st.ctx.file fd.toNat with file := fst.file }⟩)
        (fun e fst => E e ⟨fst.fs, st.ctx.setFile fd.toNat
          { st.ctx.file fd.toNat with file := fst.file }⟩)
        ⟨fs, (st.ctx.file fd.toNat).file⟩) :
    wp (onOpenFile env fd forbidden m) Q E st :=
  Port.wp_onOpenFile (fun e => he e _ (hL.lock st.fs)) fun hu hacc => h _ (hL.lock st.fs) hu hacc

end Slot

/-! ## One write -/

/-- The handle of the slot was opened with `O_APPEND`. -/
def Appends (st : MountSt σ D) (fd : ℤ) : Prop := (st.ctx.file fd.toNat).flags.append = true

/-- The inode the slot refers to. -/
def inodeAt (st : MountSt σ D) (fd : ℤ) : ℕ := (st.ctx.file fd.toNat).file.inode

/-- The contents after `new` was appended to one inode. -/
def Extends (data : σ → ℕ → List UInt8) (i : ℕ) (new : List UInt8) (fs fs' : σ) : Prop :=
  data fs' i = data fs i ++ new ∧ ∀ j, j ≠ i → data fs' j = data fs j

theorem Extends.of_same {i : ℕ} {fs fs' : σ} (h : data fs' = data fs) :
    Extends data i [] fs fs' := by
  refine ⟨?_, fun j _ => congrFun h j⟩
  rw [h, List.append_nil]

/-- The position is the end of the file. -/
theorem FileLaws.wp_seekToCurrentEnd (hL : FileLaws env data) (path : CStr) {st : FileSt σ} :
    wp (seekToCurrentEndLocked env path)
      (fun _ st' => data st'.fs = data st.fs ∧ st'.file.inode = st.file.inode ∧
        st'.file.fpos = (data st'.fs st.file.inode).length)
      (fun _ st' => data st'.fs = data st.fs) st := by
  unfold seekToCurrentEndLocked
  rw [wp_bind]
  refine wp_mono (hL.wp_currentFileSize path) ?_ fun _ _ h => h.1
  rintro size st₁ ⟨hdata, hfile, hsize⟩
  have hinode : st₁.file.inode = st.file.inode := congrArg Ext4File.inode hfile
  rw [wp_bind, wp_failIf]
  refine ⟨fun _ => hdata, fun hmax => ?_⟩
  rw [wp_bind]
  refine (wp_update _).mpr ?_
  rw [int64_of_le (Nat.le_of_not_lt hmax)]
  refine hL.wp_seek (fun _ => ⟨hdata, ?_, ?_⟩) fun hlt => ?_
  · exact hinode
  · show size = (data st₁.fs st.file.inode).length
    rw [hdata]
    exact hsize
  · exact absurd hlt (Nat.lt_irrefl size)

/-- What is written at the end of the file is appended. -/
theorem Wrote.extends {st st' : FileSt σ} {new : List UInt8} (h : Wrote data st st' new)
    (hend : st.file.fpos = (data st.fs st.file.inode).length) :
    Extends data st.file.inode new st.fs st'.fs := by
  refine ⟨?_, h.others⟩
  rw [h.content (Nat.le_of_eq hend), hend, overlay_length]

/-- `ext4_fwrite` at the end of the file appends. -/
theorem FileLaws.wp_fwrite_end (hL : FileLaws env data) (bytes : List UInt8) {st : FileSt σ}
    (hend : st.file.fpos = (data st.fs st.file.inode).length) :
    wp (env.lwext4.fwrite bytes)
      (fun n st' => n ≤ bytes.length ∧ Extends data st.file.inode (bytes.take n) st.fs st'.fs)
      (fun _ st' => ∃ new, Extends data st.file.inode new st.fs st'.fs) st := by
  refine wp_mono (hL.fwrite bytes st) ?_ ?_
  · rintro n st' ⟨hn, hw, -⟩
    exact ⟨hn, hw.extends hend⟩
  · rintro e st' ⟨n, -, hw⟩
    exact ⟨_, hw.extends hend⟩

/-- **One append.** Whatever the handle has cached, a write that returns `n` puts the
first `n` bytes behind the current content, and one that fails puts some bytes there
or none. -/
theorem FileLaws.wp_append (hL : FileLaws env data) {st : MountSt σ D} {fd : ℤ}
    (bytes : List UInt8) (happ : Appends st fd) :
    wp (vfsLwext4Write env fd bytes)
      (fun n st' => n ≤ bytes.length ∧
        Extends data (inodeAt st fd) (bytes.take n) st.fs st'.fs)
      (fun _ st' => ∃ new, Extends data (inodeAt st fd) new st.fs st'.fs) st := by
  unfold vfsLwext4Write refuseReadOnly
  simp only [wp_bind, wp_getState, wp_failIf]
  refine ⟨fun _ => ⟨[], Extends.of_same rfl⟩, fun _ => ?_⟩
  refine hL.wp_onOpenFile (fun _ fs hfs => ⟨[], Extends.of_same hfs⟩) ?_
  intro fs hfs hused _
  simp only [wp_bind, wp_whenever]
  refine ⟨fun _ => ?_, fun hn => absurd happ hn⟩
  refine wp_mono (hL.wp_seekToCurrentEnd _) ?_ fun _ st₁ h₁ =>
    ⟨[], Extends.of_same (h₁.trans hfs)⟩
  rintro _ st₁ ⟨hdata, hinode, hend⟩
  have hall : data st₁.fs = data st.fs := hdata.trans hfs
  refine wp_mono (hL.wp_fwrite_end _ (hinode ▸ hend)) ?_ ?_
  · rintro n st₂ ⟨hn, hext⟩
    rw [hinode] at hext
    have htake : (bytes.take (env.idf.ioSizeLimit bytes.length)).take n = bytes.take n := by
      rw [List.take_take, Nat.min_eq_left]
      exact Nat.le_trans hn (List.length_take_le ..)
    refine ⟨Nat.le_trans hn (List.length_take_le' ..), ?_⟩
    unfold Extends at hext ⊢
    rw [htake, hall] at hext
    exact hext
  · rintro e st₂ ⟨new, hext⟩
    rw [hinode] at hext
    unfold Extends at hext
    rw [hall] at hext
    exact ⟨new, hext⟩

/-! ## Runs -/

/-- What a step of a run owes to the appender: a write through an `O_APPEND` handle
that returns `n` has put its first `n` bytes at the offsets from the size `S` of the
inode on, left the bytes below `S` alone and made the size `S + n`. -/
def AppendPlaced (data : σ → ℕ → List UInt8) (env : Env σ D) (st : MountSt σ D) :
    MountOp → Prop
  | .write fd bytes => Appends st fd → ∀ n, (vfsLwext4Write env fd bytes).answer st = .ok n →
    n ≤ bytes.length ∧
      Extends data (inodeAt st fd) (bytes.take n) st.fs ((vfsLwext4Write env fd bytes).final st).fs
  | _ => True

/-- An operation that is a write through an `O_APPEND` handle. -/
def IsAppend (st : MountSt σ D) (op : MountOp) : Prop :=
  ∃ fd bytes, op = .write fd bytes ∧ Appends st fd

/-- An append keeps every byte of every file where it is. -/
theorem FileLaws.prefix_of_append (hL : FileLaws env data) {st : MountSt σ D} {op : MountOp}
    (hop : IsAppend st op) (i : ℕ) : data st.fs i <+: data (op.exec env st).fs i := by
  obtain ⟨fd, bytes, rfl, happ⟩ := hop
  have hpre {new : List UInt8} {fs' : σ} (hext : Extends data (inodeAt st fd) new st.fs fs') :
      data st.fs i <+: data fs' i := by
    by_cases hi : i = inodeAt st fd
    · rw [hi]
      exact ⟨new, hext.1.symm⟩
    · exact ⟨[], by rw [List.append_nil, hext.2 i hi]⟩
  refine final_of_wp (P := fun st' => data st.fs i <+: data st'.fs i)
    (wp_mono (hL.wp_append bytes happ) (fun n st' h => hpre h.2) ?_)
  rintro e st' ⟨new, hext⟩
  exact hpre hext

/-- **Appenders never overwrite each other.** In every run of operations of any
kind through any handles, each write through an `O_APPEND` handle that returns `n`
appends its first `n` bytes to the file; and as long as only such writes come, every
byte of every file stays where it is. -/
theorem appends_placed (env : Env σ D) (data : σ → ℕ → List UInt8) (hL : FileLaws env data)
    (st : MountSt σ D) (ops : List MountOp) :
    Along (MountOp.exec env) (AppendPlaced data env) st ops ∧
      (Along (MountOp.exec env) IsAppend st ops →
        ∀ i, data st.fs i <+: data (run (MountOp.exec env) st ops).fs i) := by
  constructor
  · refine along_of_forall fun st op => ?_
    cases op with
    | write fd bytes =>
      intro happ n hn
      exact (wp_final.mp (hL.wp_append bytes happ)).1 n hn
    | _ => trivial
  · intro hall i
    induction ops generalizing st with
    | nil => exact List.prefix_refl _
    | cons op ops ih =>
      obtain ⟨hop, hops⟩ := hall
      exact (hL.prefix_of_append hop i).trans (ih _ hops)

end Adapter

/-! ## Two appenders -/

namespace Ram

/-- The path `/a` of the adapter, which is `/a` in lwext4 too. -/
def pathA : CStr := [47, 97]

/-- A writable context at the root of an empty filesystem. -/
def mounted : MountSt Ram (List Ext4Direntry) :=
  ⟨blank, Ctx.new idf ⟨[47, 100], [slash], 4, false⟩ [slash]⟩

def appendFlags : OpenFlags := ⟨.wronly, true, true, false, false⟩

/-- Two appenders have the file `/a` open, which holds five bytes. -/
def twoAppenders : MountSt Ram (List Ext4Direntry) :=
  run (MountOp.exec env) mounted
    [.open_ pathA appendFlags, .open_ pathA appendFlags, .write 0 [1, 2, 3, 4, 5]]

/-- The second appender has cached size 0 and writes behind the five bytes. -/
theorem two_appenders :
    (Along (MountOp.exec env) (AppendPlaced data env) twoAppenders [.write 1 [6], .write 0 [7]] ∧
      ∀ i, data twoAppenders.fs i <+:
        data (run (MountOp.exec env) twoAppenders [.write 1 [6], .write 0 [7]]).fs i) ∧
      data (run (MountOp.exec env) twoAppenders [.write 1 [6], .write 0 [7]]).fs 12 =
        [1, 2, 3, 4, 5, 6, 7] := by
  have h := appends_placed env data fileLaws twoAppenders [.write 1 [6], .write 0 [7]]
  refine ⟨⟨h.1, h.2 ⟨⟨1, [6], rfl, ?_⟩, ⟨0, [7], rfl, ?_⟩, trivial⟩⟩, ?_⟩
  · exact (by decide : (twoAppenders.ctx.file 1).flags.append = true)
  · exact (by decide : ((MountOp.exec env twoAppenders (.write 1 [6])).ctx.file 0).flags.append = true)
  · decide

end Ram

end EspLwext4.Port
