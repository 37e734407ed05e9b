import EspLwext4.Port.Tasks
import Mathlib.Data.List.Pairwise

/-!
# What the tasks may count on

However the tasks of `EspLwext4.Port.Tasks` are interleaved: one semaphore guards the list of
the contexts, one task at a time works on the list and one in each context, the list is
complete and names every mount once, and no call uses a context or a semaphore that is gone.
-/

namespace EspLwext4.Port.Tasks

open Function (update update_self update_of_ne update_apply)

variable {faults : Bool} {s : Shared} {p p' q : Point} {a : Act} {r : Resource}

/-! ## One step and its resources -/

theorem Step.owns (h : Step faults s p a p') :
    p'.Owns r ↔ p.Owns r ∧ ¬ a.loses = some r ∨ a.gains = some r := by
  cases h with
  | createFails j => cases j <;> cases r <;> simp
  | takeFails j => cases j <;> cases r <;> simp
  | _ => cases r <;> simp

theorem Step.loses (h : Step faults s p a p') (hr : a.loses = some r) : p.Owns r := by
  cases h <;> cases hr <;> rfl

/-- The list of the contexts is changed under its lock. -/
theorem Step.of_link {e : Entry} {next : List Entry} (h : Step faults s p (.link e next) p') :
    ∃ n, p = .linked n e next ∧ p' = .leave n := by
  cases h
  exact ⟨_, rfl, rfl⟩

theorem Step.of_unlink {e : Entry} (h : Step faults s p (.unlink e) p') :
    ∃ n, p = .unlinking n e ∧ p' = .giveCtx n e := by
  cases h
  exact ⟨_, rfl, rfl⟩

theorem Shared.Inv.nodup (h : s.Inv) : s.contexts.Nodup :=
  h.ids.imp fun hid heq => hid (congrArg Entry.id heq)

theorem Shared.Inv.id_inj (h : s.Inv) {x y : Entry} (hx : x ∈ s.contexts) (hy : y ∈ s.contexts)
    (hid : x.id = y.id) : x = y := by
  by_contra hne
  have : Std.Symm fun x y : Entry => x.id ≠ y.id := ⟨fun _ _ => Ne.symm⟩
  exact h.ids.forall hx hy hne hid

theorem Step.of_vfsRegister {i : ℕ} (h : Step faults s p (.vfsRegister i) p') :
    ∃ n e, p = .publish n e ∧ e.id = i := by
  cases h
  exact ⟨_, _, rfl, rfl⟩

theorem Step.of_vfsUnregister {i : ℕ} (h : Step faults s p (.vfsUnregister i) p') :
    ∃ basePath n e, p = .both (.unregister basePath) n e ∧ e.id = i := by
  cases h
  exact ⟨_, _, _, rfl, rfl⟩

/-- What an action hands out was not given out. -/
theorem gains_fresh (hready : (protocol faults).Ready s p) (h : Step faults s p a p')
    (hr : a.gains = some r) : ¬ s.Kept r := by
  cases h with
  | callRegister e he =>
    cases hr
    exact fun hkept => Nat.lt_irrefl _ (he ▸ hkept.1)
  | created j =>
    cases hr
    exact fun hkept => Nat.lt_irrefl _ hkept.1
  | taken j n hn =>
    cases hr
    simp [Shared.Kept, hn]
  | ctxTaken j n e he =>
    cases hr
    simp [Shared.Kept, he]
  | entered i hfreed hi =>
    cases hr
    simp [Shared.Kept, hi]
  | parted n e =>
    cases hr
    exact fun hkept => hkept.2.2 e (hready.relies.target e rfl) rfl
  | _ => cases hr

theorem update_true_iff {f : ℕ → Bool} {n m : ℕ} :
    update f n true m = true ↔ f m = true ∨ n = m := by
  by_cases h : m = n
  · simp [h]
  · simp [update_of_ne h, Ne.symm h]

theorem update_false_iff {f : ℕ → Bool} {n m : ℕ} :
    update f n false m = true ↔ f m = true ∧ n ≠ m := by
  by_cases h : m = n
  · simp [h]
  · simp [update_of_ne h, Ne.symm h]

theorem kept_apply (hready : (protocol faults).Ready s p) (h : Step faults s p a p') :
    (a.apply s).Kept r ↔ s.Kept r ∧ ¬ a.loses = some r ∨ a.gains = some r := by
  have hinv : s.Inv := hready.inv
  cases h with
  | callRegister e he =>
    cases r <;> simp [Shared.Kept]
    case context i =>
    constructor
    · rintro ⟨hlt, hfreed, hlist⟩
      by_cases hi : e.id = i
      · exact .inr hi
      · exact .inl ⟨by omega, hfreed, hlist⟩
    · rintro (⟨hlt, hfreed, hlist⟩ | rfl)
      · exact ⟨by omega, hfreed, hlist⟩
      · refine ⟨by omega, ?_, fun x hx heq => ?_⟩
        · by_contra hfreed
          have := hinv.freed e.id (by simpa using hfreed)
          omega
        · have := (hinv.live x hx).1
          omega
  | created j =>
    cases r <;> simp [Shared.Kept]
    case candidate n =>
    constructor
    · rintro ⟨hlt, hdeleted, hlock⟩
      by_cases hn : s.created = n
      · exact .inr hn
      · exact .inl ⟨by omega, hdeleted, hlock⟩
    · rintro (⟨hlt, hdeleted, hlock⟩ | rfl)
      · exact ⟨by omega, hdeleted, hlock⟩
      · refine ⟨by omega, ?_, fun hlock => ?_⟩
        · by_contra hdeleted
          exact Nat.lt_irrefl _ (hinv.deleted _ (by simpa using hdeleted))
        · exact Nat.lt_irrefl _ (hinv.lock _ hlock).1
  | installFirst j n hn =>
    cases r <;> simp [Shared.Kept, hn, and_assoc]
  | discarded j n l =>
    cases r <;> simp [Shared.Kept]
    case candidate m =>
    by_cases hm : m = n
    · simp [hm]
    · simp [update_of_ne hm, Ne.symm hm]
  | joined n e next =>
    obtain rfl := hready.relies.next next rfl
    cases r <;> simp [Shared.Kept]
    case context i => tauto
  | parted n e =>
    have hmem := hready.relies.target e rfl
    cases r <;> simp [Shared.Kept]
    case context i =>
    have hlive := hinv.live e hmem
    constructor
    · rintro ⟨hlt, hfreed, hlist⟩
      by_cases hi : e.id = i
      · exact .inr hi
      · refine .inl ⟨hlt, hfreed, fun x hx hid => hlist x ?_ hid⟩
        exact hinv.nodup.mem_erase_iff.mpr ⟨fun he => hi (he ▸ hid), hx⟩
    · rintro (⟨hlt, hfreed, hlist⟩ | rfl)
      · exact ⟨hlt, hfreed, fun x hx => hlist x (List.mem_of_mem_erase hx)⟩
      · refine ⟨hlive.1, hlive.2, fun x hx hid => ?_⟩
        obtain ⟨hne, hx⟩ := hinv.nodup.mem_erase_iff.mp hx
        exact hne (hinv.id_inj hx hmem hid)
  | disposed e =>
    cases r <;> simp [Shared.Kept]
    case context i =>
    by_cases hi : i = e.id
    · simp [hi]
    · simp [update_of_ne hi, Ne.symm hi]
  | _ => cases r <;> simp [Shared.Kept, update_true_iff, update_false_iff]

/-! ## One step and the list -/

theorem Entry.Apart.symm {x y : Entry} (h : x.Apart y) : y.Apart x :=
  ⟨Ne.symm h.1, Ne.symm h.2⟩

/-! ### The list and the VFS -/

theorem Point.lock_of_held {n : ℕ} (h : p.held = some n) : p.lock = some n := by
  cases p <;> simp_all

/-- A task that holds the lock of the contexts keeps the lock busy. -/
theorem busy_of_held (hready : (protocol faults).Ready s p) {n : ℕ} (hn : p.held = some n)
    (hfree : ∀ m, s.contextsLock = some m → s.contextsHeld m = false) : False := by
  have hheld : s.contextsHeld n = true := hready.kept (.contextsLock n) hn
  rw [hfree n (hready.relies.lock n (Point.lock_of_held hn))] at hheld
  cases hheld

theorem Shared.AgreeBut.published {i : ℕ} (h : s.AgreeBut none) :
    ((Act.vfsRegister i).apply s).AgreeBut (some i) := by
  intro k hk
  show update s.registered i true k = true ↔ _
  rw [update_of_ne fun he => hk (congrArg some he.symm)]
  exact h k (by simp)

theorem Shared.AgreeBut.withdrawn {i : ℕ} (h : s.AgreeBut none) :
    ((Act.vfsUnregister i).apply s).AgreeBut (some i) := by
  intro k hk
  show update s.registered i false k = true ↔ _
  rw [update_of_ne fun he => hk (congrArg some he.symm)]
  exact h k (by simp)

theorem Shared.AgreeBut.joined {e : Entry} (h : s.AgreeBut (some e.id))
    (hshown : s.registered e.id = true) : ((Act.link e s.contexts).apply s).AgreeBut none := by
  intro k _
  simp only [Act.apply, List.exists_mem_cons_iff]
  by_cases hk : e.id = k
  · simp [← hk, hshown]
  · simp [hk, h k (by simpa using hk)]

theorem Shared.AgreeBut.parted {e : Entry} (h : s.AgreeBut (some e.id)) (hinv : s.Inv)
    (hmem : e ∈ s.contexts) (hhidden : s.registered e.id = false) :
    ((Act.unlink e).apply s).AgreeBut none := by
  intro k _
  simp only [Act.apply, hinv.nodup.mem_erase_iff]
  by_cases hk : e.id = k
  · subst hk
    simp only [hhidden, Bool.false_eq_true, false_iff, not_exists, not_and]
    exact fun x hx hid => hx.1 (hinv.id_inj hx.2 hmem hid)
  · rw [h k (by simpa using hk)]
    constructor
    · rintro ⟨x, hx, rfl⟩
      exact ⟨x, ⟨fun he => hk (congrArg Entry.id he.symm), hx⟩, rfl⟩
    · rintro ⟨x, hx, hid⟩
      exact ⟨x, hx.2, hid⟩

/-- A task with the lock of the contexts leaves at most one context half registered. -/
theorem agree_of_held (hready : (protocol faults).Ready s p) (h : Step faults s p a p') {n : ℕ}
    (hn : p'.held = some n) : (a.apply s).AgreeBut p'.drift := by
  have hagree := hready.relies.agree
  cases h with
  | createFails j | takeFails j => cases j <;> simp at hn
  | taken j n hfree =>
    -- nobody had it before
    refine hready.inv.agree fun m hm => ?_
    rw [hready.relies.lock n rfl] at hm
    exact Option.some.inj hm ▸ hfree
  | published n e => exact (hagree n rfl).published
  | withdrawn basePath n e => exact (hagree n rfl).withdrawn
  | joined n e next =>
    obtain rfl := hready.relies.next next rfl
    exact (hagree n rfl).joined (hready.relies.shown e.id rfl)
  | parted n e =>
    exact (hagree n rfl).parted hready.inv (hready.relies.target e rfl)
      (hready.relies.hidden e.id rfl)
  | callRegister | callUnregister | callRmdirRecurse | callback | loaded | unset | created
  | installFirst | installLate | discarded | released | left | disposed | handedOver | worked
  | entered | enterFails | exited => cases hn
  | _ => exact hagree _ rfl

/-- Before a task gives the lock of the contexts back, the list and the VFS agree. -/
theorem agree_of_free (hready : (protocol faults).Ready s p) (h : Step faults s p a p')
    (hfree : ∀ n, (a.apply s).contextsLock = some n → (a.apply s).contextsHeld n = false) :
    (a.apply s).AgreeBut none := by
  have hagree := hready.relies.agree
  cases h with
  | installFirst j n hn =>
    refine hready.inv.agree fun m hm => ?_
    rw [hn] at hm
    cases hm
  | taken j n hn =>
    have hbusy := hfree n (hready.relies.lock n rfl)
    simp at hbusy
  | released n e => exact hagree n rfl
  | left n => exact hagree n rfl
  | handedOver path n e => exact hagree n rfl
  | published n e => exact (busy_of_held hready rfl hfree).elim
  | withdrawn basePath n e => exact (busy_of_held hready rfl hfree).elim
  | joined n e next => exact (busy_of_held hready rfl hfree).elim
  | parted n e => exact (busy_of_held hready rfl hfree).elim
  | _ => exact hready.inv.agree hfree

theorem inv_apply (hready : (protocol faults).Ready s p) (h : Step faults s p a p') :
    (a.apply s).Inv := by
  have hinv : s.Inv := hready.inv
  have hagree := agree_of_free hready h
  cases h with
  | callRegister e he =>
    exact { hinv with
      agree := hagree
      freed := fun i hi => Nat.lt_succ_of_lt (hinv.freed i hi)
      live := fun x hx => ⟨Nat.lt_succ_of_lt (hinv.live x hx).1, (hinv.live x hx).2⟩
      registered := fun i hi =>
        ⟨Nat.lt_succ_of_lt (hinv.registered i hi).1, (hinv.registered i hi).2⟩ }
  | created j =>
    exact { hinv with
      agree := hagree
      lock := fun n hn => ⟨Nat.lt_succ_of_lt (hinv.lock n hn).1, (hinv.lock n hn).2⟩
      deleted := fun n hn => Nat.lt_succ_of_lt (hinv.deleted n hn) }
  | installFirst j n hn =>
    have hkept : s.Kept (.candidate n) := hready.kept (.candidate n) rfl
    refine { hinv with agree := hagree, lock := ?_ }
    rintro _ ⟨⟩
    exact ⟨hkept.1, hkept.2.1⟩
  | discarded j n l =>
    have hkept : s.Kept (.candidate n) := hready.kept (.candidate n) rfl
    refine { hinv with agree := hagree, lock := fun m hm => ?_, deleted := fun m hm => ?_ }
    · have hne : m ≠ n := by
        rintro rfl
        exact hkept.2.2 hm
      obtain ⟨hlt, hdeleted⟩ := hinv.lock m hm
      refine ⟨hlt, ?_⟩
      simpa [update_of_ne hne] using hdeleted
    · rcases update_true_iff.mp hm with hm | rfl
      · exact hinv.deleted m hm
      · exact hkept.1
  | published n e =>
    have hkept : s.Kept (.context e.id) := hready.kept (.context e.id) rfl
    refine { hinv with agree := hagree, registered := fun i hi => ?_ }
    rcases update_true_iff.mp hi with hi | rfl
    · exact hinv.registered i hi
    · exact ⟨hkept.1, hkept.2.1⟩
  | withdrawn basePath n e =>
    exact { hinv with
      agree := hagree
      registered := fun i hi => hinv.registered i (update_false_iff.mp hi).1 }
  | joined n e next =>
    obtain rfl := hready.relies.next next rfl
    have hkept : s.Kept (.context e.id) := hready.kept (.context e.id) rfl
    exact { hinv with
      agree := hagree
      live := List.forall_mem_cons.mpr ⟨⟨hkept.1, hkept.2.1⟩, hinv.live⟩
      ids := List.pairwise_cons.mpr ⟨fun x hx => (hkept.2.2 x hx).symm, hinv.ids⟩
      names := List.pairwise_cons.mpr
        ⟨fun x hx => (hready.relies.fresh e rfl x hx).symm, hinv.names⟩ }
  | parted n e =>
    exact { hinv with
      agree := hagree
      live := fun x hx => hinv.live x (List.mem_of_mem_erase hx)
      ids := hinv.ids.sublist (List.erase_sublist ..)
      names := hinv.names.sublist (List.erase_sublist ..) }
  | disposed e =>
    have hkept : s.Kept (.context e.id) := hready.kept (.context e.id) rfl
    have hhidden : s.registered e.id = false := hready.relies.hidden e.id rfl
    refine { hinv with
      agree := hagree
      freed := fun i hi => ?_
      live := fun x hx => ?_
      registered := fun i hi => ?_ }
    · rcases update_true_iff.mp hi with hi | rfl
      · exact hinv.freed i hi
      · exact hkept.1
    · have hne : x.id ≠ e.id := hkept.2.2 x hx
      obtain ⟨hlt, hfreed⟩ := hinv.live x hx
      refine ⟨hlt, ?_⟩
      simpa [update_of_ne hne] using hfreed
    · have hne : i ≠ e.id := by
        rintro rfl
        exact Bool.noConfusion (hhidden.symm.trans hi)
      obtain ⟨hlt, hfreed⟩ := hinv.registered i hi
      refine ⟨hlt, ?_⟩
      simpa [update_of_ne hne] using hfreed
  | _ => exact { hinv with agree := hagree }

/-- The relied-on facts speak of three fields only. -/
theorem Relies.congr {s' : Shared} (h : Relies s q) (hlock : s'.contextsLock = s.contextsLock)
    (hlist : s'.contexts = s.contexts) (hreg : s'.registered = s.registered) : Relies s' q where
  lock n hn := hlock.trans (h.lock n hn)
  target e he := hlist ▸ h.target e he
  fresh e he := hlist ▸ h.fresh e he
  hidden i hi := hreg ▸ h.hidden i hi
  shown i hi := hreg ▸ h.shown i hi
  agree n hn i hi := by
    rw [hlist, hreg]
    exact h.agree n hn i hi
  scanned l hl := hlist ▸ h.scanned l hl
  next next hnext := hlist ▸ h.next next hnext

/-! ### The loop over the contexts -/

theorem Scanned.first {contexts : List Entry} {j : Job} : Scanned contexts j contexts none := by
  refine ⟨[], rfl, fun _ _ x hx => ?_, fun x hx => ?_⟩
  · cases hx
  · cases hx

section Scanned

variable {contexts rest : List Entry} {j : Job} {item : Entry} {chosen chosen' : Option Entry}

theorem Scanned.mem (h : Scanned contexts j rest chosen) {x : Entry} (hx : x ∈ rest) :
    x ∈ contexts := by
  obtain ⟨seen, rfl, -, -⟩ := h
  exact List.mem_append_right _ hx

theorem Scanned.chosen_mem {e : Entry} (h : Scanned contexts j rest (some e)) : e ∈ contexts := by
  obtain ⟨seen, rfl, -, hchosen⟩ := h
  exact List.mem_append_left _ (hchosen e rfl)

theorem Scanned.next (h : Scanned contexts j (item :: rest) chosen)
    (hname : ∀ e, j = .register e → item.Apart e)
    (hchosen' : chosen' = chosen ∨ chosen' = some item) : Scanned contexts j rest chosen' := by
  obtain ⟨seen, rfl, hseen, hchosen⟩ := h
  refine ⟨seen ++ [item], by simp, fun e he x hx => ?_, fun x hx => ?_⟩
  · rcases List.mem_append.mp hx with hx | hx
    · exact hseen e he x hx
    · rw [List.mem_singleton.mp hx]
      exact hname e he
  · rcases hchosen' with rfl | rfl
    · exact List.mem_append_left _ (hchosen x hx)
    · cases hx
      exact List.mem_append_right _ (List.mem_singleton_self _)

/-- The loop of `register` has looked at every context. -/
theorem Scanned.done {e : Entry} (h : Scanned contexts (.register e) [] chosen) :
    ∀ x ∈ contexts, x.Apart e := by
  obtain ⟨seen, hcontexts, hseen, -⟩ := h
  rw [hcontexts, List.append_nil]
  exact hseen e rfl

theorem prefer_eq (path : CStr) (chosen : Option Entry) (item : Entry) :
    prefer path chosen item = chosen ∨ prefer path chosen item = some item := by
  unfold prefer
  split_ifs
  · exact .inr rfl
  · exact .inl rfl

end Scanned

/-! ### The point a task comes to -/

/-- A point outside the loops of `register`. -/
theorem Relies.plain (hfresh : q.fresh = none) (hshown : q.shown = none) (hloop : q.loop = none)
    (hnext : q.next = none) (hlock : ∀ n, q.lock = some n → s.contextsLock = some n)
    (htarget : ∀ e, q.target = some e → e ∈ s.contexts)
    (hhidden : ∀ i, q.hidden = some i → s.registered i = false)
    (hagree : ∀ n, q.held = some n → s.AgreeBut q.drift) : Relies s q where
  lock := hlock
  target := htarget
  fresh e he := (Option.some_ne_none e (he.symm.trans hfresh)).elim
  hidden := hhidden
  shown i hi := (Option.some_ne_none i (hi.symm.trans hshown)).elim
  agree := hagree
  scanned l hl := (Option.some_ne_none l (hl.symm.trans hloop)).elim
  next next hn := (Option.some_ne_none next (hn.symm.trans hnext)).elim

/-- The next round of the loop. -/
theorem Relies.scan {j : Job} {n : ℕ} {rest : List Entry} {chosen : Option Entry}
    (hlock : s.contextsLock = some n) (hhidden : ∀ i, j.context = some i → s.registered i = false)
    (hagree : s.AgreeBut none) (hscanned : Scanned s.contexts j rest chosen) :
    Relies s (.scan j n rest chosen) where
  lock _ hm := hm ▸ hlock
  target _ he := by cases he
  fresh _ he := by cases he
  hidden := hhidden
  shown _ hi := by cases hi
  agree _ _ := hagree
  scanned l hl := by
    cases hl
    exact hscanned
  next _ hn := by cases hn

theorem relies_apply (hready : (protocol faults).Ready s p) (h : Step faults s p a p') :
    Relies (a.apply s) p' := by
  have hlock := hready.relies.lock
  have htarget := hready.relies.target
  have hfresh := hready.relies.fresh
  have hhidden := hready.relies.hidden
  have hscanned := hready.relies.scanned
  have hagree : ∀ n, p'.held = some n → (a.apply s).AgreeBut p'.drift :=
    fun n hn => agree_of_held hready h hn
  have no {α : Type} {x : α} {C : Prop} (h : none = some x) : C := by cases h
  cases h with
  | callRegister e he =>
    refine .plain rfl rfl rfl rfl (fun _ => no) (fun _ => no) ?_ (fun _ => no)
    rintro i ⟨⟩
    -- the VFS knows allocated contexts only
    show s.registered e.id = false
    by_contra hreg
    have := (hready.inv.registered e.id (by simpa using hreg)).1
    omega
  | loaded j n hn =>
    refine .plain rfl rfl rfl rfl ?_ (fun _ => no) hhidden (fun _ => no)
    rintro _ ⟨⟩
    exact hn
  | installFirst j n hn =>
    exact .plain rfl rfl rfl rfl (fun _ hm => hm) (fun _ => no) hhidden (fun _ => no)
  | installLate j n l hl =>
    refine .plain rfl rfl rfl rfl ?_ (fun _ => no) hhidden (fun _ => no)
    rintro _ ⟨⟩
    exact hl
  | unset j | created j =>
    exact .plain rfl rfl rfl rfl (fun _ => no) (fun _ => no) hhidden (fun _ => no)
  | discarded j n l =>
    exact .plain rfl rfl rfl rfl hlock (fun _ => no) hhidden (fun _ => no)
  | createFails j | takeFails j =>
    cases j with
    | register e => exact .plain rfl rfl rfl rfl (fun _ => no) (fun _ => no) hhidden (fun _ => no)
    | _ => exact .plain rfl rfl rfl rfl (fun _ => no) (fun _ => no) (fun _ => no) (fun _ => no)
  | taken j n hn => exact .plain rfl rfl rfl rfl hlock (fun _ => no) hhidden hagree
  | begun j n => exact .scan (hlock n rfl) hhidden (hagree n rfl) .first
  | otherName e item n rest chosen hname =>
    refine .scan (hlock n rfl) hhidden (hagree n rfl) ((hscanned _ rfl).next ?_ (.inl rfl))
    rintro _ ⟨⟩
    exact hname
  | passed basePath item n rest chosen hbase =>
    exact .scan (hlock n rfl) hhidden (hagree n rfl)
      ((hscanned _ rfl).next (fun _ hj => Job.noConfusion hj) (.inl rfl))
  | weighed path item n rest chosen =>
    exact .scan (hlock n rfl) hhidden (hagree n rfl)
      ((hscanned _ rfl).next (fun _ hj => Job.noConfusion hj) (prefer_eq ..))
  | newName e n chosen =>
    refine ⟨hlock, fun _ => no, ?_, hhidden, fun _ => no, hagree, fun _ => no, fun _ => no⟩
    rintro _ ⟨⟩
    exact (hscanned _ rfl).done
  | found basePath item n rest chosen hbase =>
    refine .plain rfl rfl rfl rfl hlock ?_ (fun _ => no) hagree
    rintro _ ⟨⟩
    exact (hscanned _ rfl).mem List.mem_cons_self
  | chosen path n e =>
    refine .plain rfl rfl rfl rfl hlock ?_ (fun _ => no) hagree
    rintro _ ⟨⟩
    exact (hscanned _ rfl).chosen_mem
  | published n e =>
    refine ⟨hlock, fun _ => no, hfresh, fun _ => no, ?_, hagree, fun _ => no, fun _ => no⟩
    rintro _ ⟨⟩
    exact update_self ..
  | nextSet n e =>
    refine ⟨hlock, fun _ => no, hfresh, fun _ => no, hready.relies.shown, hagree, fun _ => no, ?_⟩
    rintro _ ⟨⟩
    rfl
  | withdrawn basePath n e =>
    refine .plain rfl rfl rfl rfl hlock htarget ?_ hagree
    rintro _ ⟨⟩
    exact update_self ..
  | ctxTaken | inUse => exact .plain rfl rfl rfl rfl hlock htarget (fun _ => no) hagree
  | sameName | refused | parted | ctxGiven =>
    exact .plain rfl rfl rfl rfl hlock (fun _ => no) hhidden hagree
  | notFound | noneChosen | joined | ctxTakeFails | spared =>
    exact .plain rfl rfl rfl rfl hlock (fun _ => no) (fun _ => no) hagree
  | released => exact .plain rfl rfl rfl rfl (fun _ => no) (fun _ => no) hhidden (fun _ => no)
  | handedOver => exact .plain rfl rfl rfl rfl (fun _ => no) htarget (fun _ => no) (fun _ => no)
  | callUnregister | callRmdirRecurse | callback | left | disposed | worked | entered | enterFails
  | exited => exact .plain rfl rfl rfl rfl (fun _ => no) (fun _ => no) (fun _ => no) (fun _ => no)

/-! ### The points of the other tasks -/

/-- Two tasks that hold the lock of the contexts hold the same one. -/
theorem not_both_held (hp : Relies s p) (hq : Relies s q) (hapart : (protocol faults).Apart p q)
    {n m : ℕ} (hn : p.held = some n) (hm : q.held = some m) : False := by
  have heq : n = m := Option.some.inj
    ((hp.lock n (Point.lock_of_held hn)).symm.trans (hq.lock m (Point.lock_of_held hm)))
  exact hapart (.contextsLock n) hn (heq ▸ hm)

/-- A task without the lock of the contexts relies on the list for its own context only. -/
theorem Relies.of_not_held {s' : Shared} (h : Relies s q) (hno : q.held = none)
    (hlock : s'.contextsLock = s.contextsLock) (hreg : s'.registered = s.registered)
    (htarget : ∀ e, q.target = some e → e ∈ s'.contexts) : Relies s' q where
  lock n hn := hlock.trans (h.lock n hn)
  target := htarget
  fresh e he := by cases q <;> simp at he hno
  hidden i hi := hreg ▸ h.hidden i hi
  shown i hi := hreg ▸ h.shown i hi
  agree n hn := (Option.some_ne_none n (hn.symm.trans hno)).elim
  scanned l hl := by cases q <;> simp at hl hno
  next next hnext := by cases q <;> simp at hnext hno

theorem Point.hidden_cases {i : ℕ} (h : q.hidden = some i) :
    q.context = some i ∨ ∃ n e, q = .unlinking n e ∧ e.id = i := by
  cases q with
  | unlinking n e => exact .inr ⟨n, e, rfl, Option.some.inj h⟩
  | linking | linked => cases h
  | _ => exact .inl h

theorem Point.target_cases {e : Entry} (h : q.target = some e) :
    (∃ n, q.held = some n) ∨ q = .working e := by
  cases q with
  | working e' => exact .inr (congrArg _ (Option.some.inj h))
  | takeCtx | both | keep | unlinking => exact .inl ⟨_, rfl⟩
  | _ => cases h

theorem relies_others (hready : (protocol faults).Ready s p) (h : Step faults s p a p')
    (hq : Relies s q) (hapart : (protocol faults).Apart p q) : Relies (a.apply s) q := by
  have not_held {n : ℕ} (hn : p.held = some n) : q.held = none :=
    Option.eq_none_iff_forall_ne_some.mpr fun m hm =>
      not_both_held hready.relies hq hapart hn hm
  cases a with
  | tau | allocate _ | create _ | delete _ | takeContexts _ | giveContexts _ | takeCtx _
  | giveCtx _ | free _ => exact hq.congr rfl rfl rfl
  | install n =>
    have hnone : s.contextsLock = none := by
      cases h
      assumption
    refine { hq with lock := fun m hm => ?_ }
    rw [hq.lock m hm] at hnone
    cases hnone
  | vfsRegister i =>
    obtain ⟨n, e, rfl, rfl⟩ := h.of_vfsRegister
    have hno := not_held rfl
    refine { hq with
      hidden := fun k hk => ?_
      shown := fun k hk => update_true_iff.mpr (.inl (hq.shown k hk))
      agree := fun m hm => (Option.some_ne_none m (hm.symm.trans hno)).elim }
    have hne : k ≠ e.id := by
      rintro rfl
      rcases Point.hidden_cases hk with hcontext | ⟨n, x, rfl, hid⟩
      · exact hapart (.context e.id) rfl hcontext
      · cases hno
    exact (update_of_ne hne ..).trans (hq.hidden k hk)
  | vfsUnregister i =>
    obtain ⟨basePath, n, e, rfl, rfl⟩ := h.of_vfsUnregister
    have hno := not_held rfl
    refine { hq with
      hidden := fun k hk => ?_
      shown := fun k hk => ?_
      agree := fun m hm => (Option.some_ne_none m (hm.symm.trans hno)).elim }
    · show update s.registered e.id false k = false
      rw [update_apply, hq.hidden k hk, ite_self]
    · cases q <;> simp at hk hno
  | link e next =>
    obtain ⟨n, rfl, -⟩ := h.of_link
    obtain rfl := hready.relies.next next rfl
    exact hq.of_not_held (not_held rfl) rfl rfl fun x hx => List.mem_cons_of_mem _ (hq.target x hx)
  | unlink e =>
    obtain ⟨n, rfl, -⟩ := h.of_unlink
    refine hq.of_not_held (not_held rfl) rfl rfl fun x hx => ?_
    refine (List.mem_erase_of_ne ?_).mpr (hq.target x hx)
    -- a task at work in the context has its lock
    rintro rfl
    rcases Point.target_cases hx with ⟨m, hm⟩ | rfl
    · exact not_both_held hready.relies hq hapart rfl hm
    · exact hapart (.ctxLock x.id) rfl rfl

theorem protocol_sound : (protocol faults).Sound where
  inv := inv_apply
  relies := relies_apply
  others := relies_others
  gains := gains_fresh
  loses := Step.loses
  owns := Step.owns
  kept := kept_apply

end EspLwext4.Port.Tasks
