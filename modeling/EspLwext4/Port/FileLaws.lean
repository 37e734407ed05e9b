import EspLwext4.Port.Ram

/-!
# What the adapter relies on for file contents

The behaviour of lwext4 on open files that the results about offsets, sizes and
contents assume: `ext4_fseek` accepts positions up to the size cached in the
handle, `ext4_fread` and `ext4_fwrite` first refresh that size from the inode, and
`ext4_fwrite` writes a prefix of its data at the position. `data` is the content
of each inode.
-/

namespace EspLwext4.Port

open Prog

variable {σ D : Type}

/-- The transfer kept its file and refreshed the cached size. -/
structure Refreshed (data : σ → ℕ → List UInt8) (st st' : FileSt σ) : Prop where
  inode : st'.file.inode = st.file.inode
  fsize : st'.file.fsize = (data st'.fs st.file.inode).length

/-- The transfer wrote `new` at the position of the file, and nothing else. -/
structure Wrote (data : σ → ℕ → List UInt8) (st st' : FileSt σ) (new : List UInt8) : Prop
    extends Refreshed data st st' where
  others : ∀ j, j ≠ st.file.inode → data st'.fs j = data st.fs j
  content : st.file.fpos ≤ (data st.fs st.file.inode).length →
    data st'.fs st.file.inode = overlay (data st.fs st.file.inode) st.file.fpos new

structure FileLaws (env : Env σ D) (data : σ → ℕ → List UInt8) : Prop where
  lock : ∀ s, data (env.idf.semaphoreTake s).2 = data s
  rawInodeFill : ∀ p s, wp (env.lwext4.rawInodeFill p)
    (fun r s' => data s' = data s ∧ r.2.size = (data s r.1).length) (fun _ s' => data s' = data s) s
  getSblock : ∀ p s, wp (env.lwext4.getSblock p) (fun _ s' => data s' = data s)
    (fun _ s' => data s' = data s) s
  seek : ∀ (o : ℤ) (st : FileSt σ), 0 ≤ o → o ≤ st.file.fsize →
    env.lwext4.fseek o .seekSet st = .ok () ⟨st.fs, { st.file with fpos := o.toNat }⟩
  seek_refused : ∀ (o : ℤ) (st : FileSt σ), ¬ (0 ≤ o ∧ o ≤ st.file.fsize) →
    env.lwext4.fseek o .seekSet st = .err .einval st
  fread : ∀ n st, wp (env.lwext4.fread n)
    (fun _ st' => Refreshed data st st' ∧ data st'.fs = data st.fs)
    (fun _ st' => Refreshed data st st' ∧ data st'.fs = data st.fs) st
  fwrite : ∀ bytes st, wp (env.lwext4.fwrite bytes)
    (fun n st' => n ≤ bytes.length ∧ Wrote data st st' (bytes.take n) ∧
      st'.file.fpos = st.file.fpos + n)
    (fun _ st' => ∃ n ≤ bytes.length, Wrote data st st' (bytes.take n)) st

/-! ## Overlays -/

theorem length_overlay {old new : List UInt8} {pos : ℕ} (h : pos ≤ old.length) :
    (overlay old pos new).length = max old.length (pos + new.length) := by
  unfold overlay
  rw [Nat.sub_eq_zero_of_le h]
  simp only [List.replicate_zero, List.append_nil, List.length_append, List.length_take,
    List.length_drop]
  omega

/-- Writing at the end appends. -/
theorem overlay_length (old new : List UInt8) : overlay old old.length new = old ++ new := by
  unfold overlay
  simp

/-! ## The functions on one file -/

section File

variable {env : Env σ D} {data : σ → ℕ → List UInt8} {st : FileSt σ}

theorem FileLaws.wp_seek (hL : FileLaws env data) {o : ℕ} {Q : Unit → FileSt σ → Prop}
    {E : Errno → FileSt σ → Prop}
    (h : o ≤ st.file.fsize → Q () ⟨st.fs, { st.file with fpos := o }⟩)
    (he : st.file.fsize < o → E .einval st) :
    wp (env.lwext4.fseek o .seekSet) Q E st := by
  by_cases ho : o ≤ st.file.fsize
  · unfold wp
    rw [hL.seek o st (Int.natCast_nonneg o) (Int.ofNat_le.mpr ho)]
    exact h ho
  · unfold wp
    rw [hL.seek_refused o st fun hn => ho (Int.ofNat_le.mp hn.2)]
    exact he (Nat.lt_of_not_le ho)

/-- Reading the size changes no file. The size is that of the inode, and the path
still names it. -/
theorem FileLaws.wp_currentFileSize (hL : FileLaws env data) (path : CStr) :
    wp (currentFileSizeLocked env path)
      (fun size st' => data st'.fs = data st.fs ∧ st'.file = st.file ∧
        size = (data st.fs st.file.inode).length)
      (fun _ st' => data st'.fs = data st.fs ∧ st'.file = st.file) st := by
  unfold currentFileSizeLocked
  rw [wp_bind, wp_zoom]
  refine wp_mono (hL.rawInodeFill path st.fs) ?_ fun _ _ h => ⟨h, rfl⟩
  rintro ⟨number, inode⟩ fs ⟨hdata, hsize⟩
  simp only [wp_bind, wp_getState, wp_failIf, wp_zoom, wp_pure]
  refine ⟨fun _ => ⟨hdata, rfl⟩, fun hnum => ?_⟩
  have hnumber : number = st.file.inode := not_not.mp hnum
  refine wp_mono (hL.getSblock path fs) ?_ fun _ _ h => ⟨h.trans hdata, rfl⟩
  intro _ fs' hdata'
  exact ⟨hdata'.trans hdata, rfl, hnumber ▸ hsize⟩

end File

/-! ## The library in memory -/

namespace Ram

theorem fileLaws : FileLaws env Ram.data where
  lock _ := rfl
  rawInodeFill p s := by
    unfold wp env lwext4 onName
    simp only
    cases s.lookup p with
    | none => exact rfl
    | some i => exact ⟨rfl, rfl⟩
  getSblock _ _ := rfl
  seek o st h₀ h₁ := by
    show fseek o .seekSet st = _
    unfold fseek seekTarget
    rw [if_pos ⟨h₀, h₁⟩]
  seek_refused o st h := by
    show fseek o .seekSet st = _
    unfold fseek seekTarget
    rw [if_neg h]
  fread n st := ⟨⟨rfl, rfl⟩, rfl⟩
  fwrite bytes st := by
    refine ⟨Nat.le_refl _, ⟨⟨rfl, ?_⟩, fun j hj => if_neg hj, fun _ => ?_⟩, rfl⟩
    · exact congrArg List.length (if_pos rfl).symm
    · rw [List.take_length]
      exact if_pos rfl

end Ram

end EspLwext4.Port
