import EspLwext4.Port.Paths
import Mathlib.Data.List.DropRight
import Mathlib.Data.List.TakeWhile

/-!
# Paths as lists of components

The three pointer walks over path strings read the same list: the pieces between slashes that
are not empty. A strict descendant has a longer list with the parent's in front, and a path is
the mount root when walking its list from the root ends there.
-/

namespace EspLwext4.Port

/-- The names in a path. -/
def components (p : CStr) : List CStr := (p.splitOn slash).filter fun c => c ≠ []

/-- One step of a lexical walk: `.` stays, `..` goes up and stays at the root. -/
def resolveStep (names : List CStr) (c : CStr) : List CStr :=
  if c = [dot] then names else if c = [dot, dot] then names.dropLast else names ++ [c]

/-- Where a lexical walk from the root ends. -/
def resolve (cs : List CStr) : List CStr := cs.foldl resolveStep []

/-- `p` comes in front of `q` and is not all of it. -/
def ProperPrefix (p q : List CStr) : Prop := p <+: q ∧ p ≠ q

section Lemmas

variable {p q c rest parent child : CStr} {rounds : ℕ} {cs ds : List CStr}

/-! ## Splitting -/

theorem components_nil : components [] = [] := by decide

theorem components_slash (p : CStr) : components (slash :: p) = components p := by
  unfold components
  have h := List.splitOn_append_cons_self [] p (a := slash)
  rw [List.nil_append, List.splitOn_nil] at h
  rw [h]
  rfl

/-- Behind a slash a path is split anew. -/
theorem components_append (h : p.getLast? = some slash) (q : CStr) :
    components (p ++ q) = components p ++ components q := by
  obtain ⟨m, rfl⟩ := List.getLast?_eq_some_iff.mp h
  unfold components
  rw [List.append_assoc, List.singleton_append, List.splitOn_append_cons_self,
    List.splitOn_append_cons_self, List.splitOn_nil, ← List.filter_append, List.filter_append]
  simp

theorem components_skipSlashes (p : CStr) : components (skipSlashes p) = components p := by
  induction p with
  | nil => rfl
  | cons b p ih =>
      by_cases hb : b = slash
      · subst hb
        rw [components_slash, ← ih]
        rfl
      · have : skipSlashes (b :: p) = b :: p := List.dropWhile_cons_of_neg (by simpa using hb)
        rw [this]

theorem component_append_after (p : CStr) : component p ++ afterComponent p = p :=
  List.takeWhile_append_dropWhile

theorem slash_notMem_component (p : CStr) : slash ∉ component p := by
  intro h
  have := List.mem_takeWhile_imp h
  simp at this

/-- A path that starts with a name. -/
theorem components_component (hp : component p ≠ []) :
    components p = component p :: components (afterComponent p) := by
  have hsplit := component_append_after p
  have hfree := slash_notMem_component p
  rcases hafter : afterComponent p with _ | ⟨b, rest⟩
  · rw [hafter, List.append_nil] at hsplit
    rw [hsplit] at hfree hp ⊢
    rw [components_nil]
    unfold components
    rw [List.splitOn_eq_singleton hfree]
    simp [hp]
  · have hb : b = slash := by
      have := List.head_dropWhile_not (fun b => b != slash) (l := p)
        (fun h => by rw [afterComponent, h] at hafter; cases hafter)
      have hhead : (p.dropWhile fun b => b != slash) = b :: rest := hafter
      simp only [hhead, List.head_cons] at this
      simpa using this
    subst hb
    rw [components_slash]
    have hcons : components (component p ++ slash :: rest) = component p :: components rest := by
      unfold components
      rw [List.splitOn_append_cons_self, List.splitOn_eq_singleton hfree]
      simp [hp]
    rw [hafter] at hsplit
    rw [← hcons, hsplit]

/-- In front of a name there is no slash. -/
theorem component_skipSlashes_eq_nil_iff : component (skipSlashes p) = [] ↔ skipSlashes p = [] := by
  rcases hskip : skipSlashes p with _ | ⟨b, rest⟩
  · exact ⟨fun _ => rfl, fun _ => rfl⟩
  · have hb : b ≠ slash := by
      have := List.head_dropWhile_not (fun b => b == slash) (l := p)
        (fun h => by rw [skipSlashes, h] at hskip; cases hskip)
      have hhead : (p.dropWhile fun b => b == slash) = b :: rest := hskip
      simp only [hhead, List.head_cons] at this
      simpa using this
    have : component (b :: rest) = b :: component rest :=
      List.takeWhile_cons_of_pos (by simpa using hb)
    rw [this]
    exact ⟨fun h => absurd h (List.cons_ne_nil _ _), fun h => absurd h (List.cons_ne_nil _ _)⟩

/-- One round of each walk: the next name, if there is one. -/
theorem components_eq (p : CStr) : components p =
    if skipSlashes p = [] then []
    else component (skipSlashes p) :: components (afterComponent (skipSlashes p)) := by
  rw [← components_skipSlashes]
  split
  · rename_i h
    rw [h, components_nil]
  · rename_i h
    exact components_component fun hc => h (component_skipSlashes_eq_nil_iff.mp hc)

theorem components_eq_nil_iff : components p = [] ↔ skipSlashes p = [] := by
  rw [components_eq]
  split
  · rename_i h
    exact ⟨fun _ => h, fun _ => rfl⟩
  · rename_i h
    exact ⟨fun hc => absurd hc (List.cons_ne_nil _ _), fun hc => absurd hc h⟩

/-- A round passes at least one byte. -/
theorem length_afterComponent_lt (hp : p ≠ []) :
    (afterComponent (skipSlashes p)).length < p.length := by
  have hskip : (skipSlashes p).length ≤ p.length := (List.dropWhile_suffix _).length_le
  by_cases h : skipSlashes p = []
  · rw [h]
    exact List.length_pos_of_ne_nil hp
  · have hpos := List.length_pos_of_ne_nil fun hc => h (component_skipSlashes_eq_nil_iff.mp hc)
    have := congrArg List.length (component_append_after (skipSlashes p))
    rw [List.length_append] at this
    omega

/-! ## The walks -/

/-- The walks that go over one path meet its names, and empty pieces between them. -/
theorem filter_visited : ∀ {rounds : ℕ} {p : CStr}, p.length ≤ rounds →
    (visited rounds p).filter (fun c => c ≠ []) = components p := by
  intro rounds
  induction rounds with
  | zero =>
      intro p hp
      rw [List.eq_nil_of_length_eq_zero (Nat.le_zero.mp hp)]
      rfl
  | succ rounds ih =>
      intro p hp
      unfold visited
      split
      · rename_i h
        rw [h]
        rfl
      · rename_i h
        have hlt := length_afterComponent_lt h
        rw [List.filter_cons, ih (by omega), components_eq p]
        by_cases hskip : skipSlashes p = []
        · rw [if_pos hskip, hskip]
          rfl
        · rw [if_neg hskip, if_pos]
          exact decide_eq_true fun hc => hskip (component_skipSlashes_eq_nil_iff.mp hc)

theorem any_of_filter {f : CStr → Bool} (h0 : f [] = false) (cs : List CStr) :
    cs.any f = (cs.filter fun c => c ≠ []).any f := by
  induction cs with
  | nil => rfl
  | cons c cs ih =>
      by_cases hc : c = []
      · subst hc
        rw [List.any_cons, h0, Bool.false_or, ih]
        rfl
      · rw [List.filter_cons_of_pos (by simpa using hc), List.any_cons, List.any_cons, ih]

theorem foldl_depthAfter_filter (cs : List CStr) : ∀ depth : ℕ,
    cs.foldl depthAfter depth = (cs.filter fun c => c ≠ []).foldl depthAfter depth := by
  induction cs with
  | nil => exact fun _ => rfl
  | cons c cs ih =>
      intro depth
      by_cases hc : c = []
      · subst hc
        rw [List.foldl_cons, ih]
        rfl
      · rw [List.filter_cons_of_pos (by simpa using hc), List.foldl_cons, List.foldl_cons, ih]

/-- The counter of `path_is_mount_root` is the length of the walk. -/
theorem foldl_depthAfter (hcs : ∀ c ∈ cs, c ≠ []) : ∀ names : List CStr,
    cs.foldl depthAfter names.length = (cs.foldl resolveStep names).length := by
  induction cs with
  | nil => exact fun _ => rfl
  | cons c cs ih =>
      intro names
      have hstep : depthAfter names.length c = (resolveStep names c).length := by
        have hc := hcs c List.mem_cons_self
        unfold depthAfter resolveStep isDot isDotDot
        by_cases hdot : c = [dot]
        · rw [if_pos (Or.inr (by simpa using hdot)), if_pos hdot]
        · rw [if_neg (by simp [hc, hdot]), if_neg hdot]
          by_cases hdots : c = [dot, dot]
          · rw [if_pos (by simpa using hdots), if_pos hdots, List.length_dropLast]
            split <;> omega
          · rw [if_neg (by simpa using hdots), if_neg hdots, List.length_append, List.length_singleton]
      rw [List.foldl_cons, List.foldl_cons, hstep]
      exact ih (fun d hd => hcs d (List.mem_cons_of_mem c hd)) _

theorem components_ne_nil : ∀ c ∈ components p, c ≠ [] := by
  intro c hc
  simpa using (List.mem_filter.mp hc).2

theorem pathHasDotComponent_iff :
    pathHasDotComponent p = true ↔ ∃ c ∈ components p, c = [dot] ∨ c = [dot, dot] := by
  unfold pathHasDotComponent
  rw [any_of_filter rfl, filter_visited (Nat.le_refl _), List.any_eq_true]
  unfold isDot isDotDot
  simp

theorem pathIsMountRoot_iff : pathIsMountRoot p = true ↔ resolve (components p) = [] := by
  unfold pathIsMountRoot
  rw [foldl_depthAfter_filter, filter_visited (Nat.le_refl _)]
  have h := foldl_depthAfter (fun c hc => components_ne_nil (p := p) c hc) []
  rw [List.length_nil] at h
  rw [h, beq_iff_eq, List.length_eq_zero_iff]
  rfl

/-- The walk over two paths side by side. -/
theorem strictDescendantLoop_iff : ∀ {rounds : ℕ} {parent child : CStr}, parent.length ≤ rounds →
    (strictDescendantLoop rounds parent child = true ↔
      ProperPrefix (components parent) (components child)) := by
  -- the parent has no more names
  have ended {parent child : CStr} (h : components parent = []) :
      (skipSlashes child != []) = true ↔ ProperPrefix (components parent) (components child) := by
    unfold ProperPrefix
    rw [h, bne_iff_ne, ne_eq, ← components_eq_nil_iff]
    exact ⟨fun hc => ⟨List.nil_prefix, fun h => hc h.symm⟩, fun hc h => hc.2 h.symm⟩
  intro rounds
  induction rounds with
  | zero =>
      intro parent child hlen
      obtain rfl := List.eq_nil_of_length_eq_zero (Nat.le_zero.mp hlen)
      exact ended rfl
  | succ rounds ih =>
      intro parent child hlen
      unfold strictDescendantLoop
      by_cases hnil : parent = []
      · subst hnil
        rw [if_pos rfl]
        exact ended rfl
      rw [if_neg hnil]
      dsimp only
      by_cases hskip : skipSlashes parent = []
      · rw [if_pos hskip]
        have hagain : skipSlashes (skipSlashes child) = skipSlashes child := by
          unfold skipSlashes
          exact List.dropWhile_idempotent ..
        rw [hagain]
        exact ended (components_eq_nil_iff.mpr hskip)
      rw [if_neg hskip, components_eq parent, if_neg hskip]
      have hname : component (skipSlashes parent) ≠ [] :=
        fun h => hskip (component_skipSlashes_eq_nil_iff.mp h)
      by_cases hsame : component (skipSlashes parent) = component (skipSlashes child)
      · have hchild : skipSlashes child ≠ [] := by
          intro h
          rw [h] at hsame
          exact hname hsame
        have hlt := length_afterComponent_lt hnil
        rw [if_neg (by simpa using hsame), ih (by omega), components_eq child, if_neg hchild, ← hsame]
        unfold ProperPrefix
        rw [List.cons_prefix_cons, ne_eq, ne_eq, List.cons.injEq]
        tauto
      · rw [if_pos (by simpa using hsame)]
        refine ⟨fun h => absurd h Bool.false_ne_true, ?_⟩
        rintro ⟨hpre, -⟩
        exfalso
        rw [components_eq child] at hpre
        split at hpre
        · exact absurd (List.prefix_nil.mp hpre) (List.cons_ne_nil _ _)
        · exact hsame (List.cons_prefix_cons.mp hpre).1

/-- Without dot components the walk goes down all the way. -/
theorem resolve_of_no_dot (h : ∀ c ∈ cs, ¬ (c = [dot] ∨ c = [dot, dot])) : resolve cs = cs := by
  have key : ∀ names, cs.foldl resolveStep names = names ++ cs := by
    induction cs with
    | nil => intro names; simp
    | cons c cs ih =>
        intro names
        have hc := h c List.mem_cons_self
        rw [List.foldl_cons, ih fun d hd => h d (List.mem_cons_of_mem c hd)]
        unfold resolveStep
        rw [if_neg fun hd => hc (Or.inl hd), if_neg fun hd => hc (Or.inr hd)]
        simp
  exact key []

end Lemmas

/-- **The path walks read the list of components.** For all byte strings, with slashes in
front, behind and repeated. -/
theorem path_walks_read_components (parent child path : CStr) :
    (pathIsStrictDescendant parent child = true ↔
      ProperPrefix (components parent) (components child)) ∧
    (pathHasDotComponent path = true ↔ ∃ c ∈ components path, c = [dot] ∨ c = [dot, dot]) ∧
    (pathIsMountRoot path = true ↔ resolve (components path) = []) ∧
    (pathIsMountRoot path = false ∧ pathHasDotComponent path = false →
      resolve (components path) = components path ∧ components path ≠ []) := by
  refine ⟨strictDescendantLoop_iff (Nat.le_refl _), pathHasDotComponent_iff, pathIsMountRoot_iff, ?_⟩
  rintro ⟨hroot, hdot⟩
  have hno : ∀ c ∈ components path, ¬ (c = [dot] ∨ c = [dot, dot]) := by
    intro c hc hcd
    rw [pathHasDotComponent_iff.mpr ⟨c, hc, hcd⟩] at hdot
    cases hdot
  refine ⟨resolve_of_no_dot hno, fun hnil => ?_⟩
  rw [pathIsMountRoot_iff.mpr (by rw [hnil]; rfl)] at hroot
  cases hroot

end EspLwext4.Port
