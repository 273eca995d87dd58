import VirtualMemory.Mapping.Span
import VirtualMemory.Proofs.Build
import VirtualMemory.Proofs.Canonical
import VirtualMemory.Proofs.Remove
import VirtualMemory.Proofs.Runs

/-!
# What mapping a span does

A span is mapped page by page until one page fails. What lies below the trails of the pages mapped
so far is written over, and unwinding takes it away again.

* `mapPage_eq_ok`, `mapPage_eq_error` and the same for large pages: a page is refused at once, or its
  leaf is to be written;
* `Machine.mapPrefix`: the pages of a span up to the first that fails, and
  **`mapSpanFrom_eq`**: mapping a span is mapping this prefix and unwinding it on failure;
* `Span.overlay`: the leaves after the pages of a span were mapped over others;
* **`Owns.mapPrefix`**, **`Owns.unwind`**: the two halves of a call;
* **`unmapPages_eq`**: unmapping a run is unwinding it.
-/

namespace VirtualMemory

/-! ## Leaves of a span -/

namespace Span

variable (s : Span) (a : Attributes) {i j n : Nat} {f : Path → Option Entry} {p : Path}

def path (i : Nat) : Path := (s.virt.addPages i).trail 4

def leaf (i : Nat) : Entry := .make (s.phys.addPages i) a.encode.asLeaf

/-- **The leaves after `n` pages were mapped**, from the page `i` on, over the leaves `f`. -/
def overlay : (n i : Nat) → (Path → Option Entry) → Path → Option Entry
  | 0, _, f => f
  | n + 1, i, f => overlay n (i + 1) (Function.update f (s.path i) (some (s.leaf a i)))

theorem overlay_of_ne (h : ∀ j, i ≤ j → j < i + n → p ≠ s.path j) :
    s.overlay a n i f p = f p := by
  induction n generalizing i f with
  | zero => rfl
  | succ n ih =>
    rw [overlay, ih fun j hi hj => h j (by omega) (by omega),
      Function.update_of_ne (h i (Nat.le_refl i) (by omega))]

theorem overlay_path (hi : i ≤ j) (hj : j < i + n)
    (h : ∀ k, j < k → k < i + n → s.path j ≠ s.path k) :
    s.overlay a n i f (s.path j) = some (s.leaf a j) := by
  induction n generalizing i f with
  | zero => omega
  | succ n ih =>
    rw [overlay]
    rcases Nat.lt_or_eq_of_le hi with hi | rfl
    · exact ih hi (by omega) fun k hk hk' => h k hk (by omega)
    · rw [overlay_of_ne s a fun k hk hk' => h k hk (by omega), Function.update_self]

/-- **Each page that was mapped has a leaf of the span**, though maybe not its own. -/
theorem overlay_of_page (h : (∃ j, f p = some (s.leaf a j)) ∨ ∃ j, i ≤ j ∧ j < i + n ∧ p = s.path j) :
    ∃ j, s.overlay a n i f p = some (s.leaf a j) := by
  induction n generalizing i f with
  | zero => exact h.resolve_right fun ⟨j, hj, hj', _⟩ => by omega
  | succ n ih =>
    apply ih
    by_cases hp : p = s.path i
    · exact .inl ⟨i, by rw [hp, Function.update_self]⟩
    · rw [Function.update_of_ne hp]
      refine h.imp_right fun ⟨j, hj, hj', he⟩ => ⟨j, ?_, by omega, he⟩
      rcases Nat.lt_or_eq_of_le hj with hj | rfl
      · exact hj
      · exact absurd he hp

theorem overlay_ne_none_iff :
    s.overlay a n i f p ≠ none ↔ f p ≠ none ∨ ∃ j, i ≤ j ∧ j < i + n ∧ p = s.path j := by
  induction n generalizing i f with
  | zero => simp only [overlay]; exact ⟨.inl, fun h => h.resolve_right (by rintro ⟨j, h⟩; omega)⟩
  | succ n ih =>
    rw [overlay, ih]
    by_cases hp : p = s.path i
    · subst hp
      simp only [Function.update_self, ne_eq, reduceCtorEq, not_false_eq_true, true_or, true_iff]
      exact .inr ⟨i, Nat.le_refl i, by omega, rfl⟩
    · rw [Function.update_of_ne hp]
      refine or_congr Iff.rfl ⟨?_, ?_⟩
      · rintro ⟨j, h₁, h₂, h₃⟩
        exact ⟨j, by omega, by omega, h₃⟩
      · rintro ⟨j, h₁, h₂, h₃⟩
        rcases Nat.lt_or_eq_of_le h₁ with h₁ | rfl
        · exact ⟨j, h₁, by omega, h₃⟩
        · exact absurd h₃ hp

end Span

namespace Memory

/-- Every table of the hierarchy in `mem` is in its place in `mem'`. -/
def Extends (root : PAddr) (mem mem' : Memory) : Prop :=
  ∀ p t, mem.tableAt root p = some t → mem'.tableAt root p = some t

variable {mem mem' mem'' : Memory} {root : PAddr} {v : VAddr} {e : Entry} {k : Nat}

theorem Extends.refl (mem : Memory) : mem.Extends root mem := fun _ _ h => h

theorem Extends.trans (h : mem.Extends root mem') (h' : mem'.Extends root mem'') :
    mem.Extends root mem'' := fun p t ht => h' p t (h p t ht)

theorem extends_of_slot (h : mem'.slot root = mem.slot root) : mem.Extends root mem' := by
  intro p t ht
  rwa [tableAt_eq_tableIn, h, ← tableAt_eq_tableIn]

theorem leaf_trail_of_page (he : mem.leaf root (v.trail 4) = some e) (hk : k ≠ 4) :
    mem.leaf root (v.trail k) = none := by
  by_contra hne
  obtain ⟨e', he'⟩ := Option.ne_none_iff_exists'.1 hne
  exact hk (length_eq_of_leaf_trail he' he)

end Memory

namespace Machine

variable {α : Type} [FrameSource α] {used others : Set PAddr} {root p : PAddr} {v : VAddr}
  {w : Widths} {s : Span} {a : Attributes} {x : MapError} {n i count : Nat} {m m' : Machine α}

/-! ## Single pages -/

theorem mapPage_eq_ok (hrun : m.mapPage w root p v a = (.ok (), m')) :
    w.admitsFrame p = true ∧ w.admitsPage v = true ∧
      m.writeLeaf root p v .pt a.encode.asLeaf = (.ok (), m') := by
  unfold mapPage at hrun
  split at hrun
  · cases hrun
  · rename_i hr
    simp only [Bool.or_eq_true, not_or, Bool.not_eq_true', Bool.not_eq_false] at hr
    exact ⟨hr.1, hr.2, hrun⟩

theorem mapPage_eq_error (hrun : m.mapPage w root p v a = (.error x, m')) :
    m' = m ∨ m.writeLeaf root p v .pt a.encode.asLeaf = (.error x, m') := by
  unfold mapPage at hrun
  split at hrun
  · cases hrun
    exact .inl rfl
  · exact .inr hrun

theorem mapLarge_eq_ok (hrun : m.mapLarge w root p v a = (.ok (), m')) :
    w.admitsFrame p = true ∧ w.admitsPage v = true ∧
      m.writeLeaf root p v .pd a.encode.asLeaf.enlarged = (.ok (), m') := by
  unfold mapLarge at hrun
  split at hrun
  · cases hrun
  · rename_i hr
    simp only [Bool.or_eq_true, not_or, Bool.not_eq_true', Bool.not_eq_false] at hr
    exact ⟨hr.1.1.1, hr.1.1.2, hrun⟩

theorem isAligned_of_mapLarge (hrun : m.mapLarge w root p v a = (.ok (), m')) :
    p.isAligned PageSize.mib2.bytes = true ∧ v.isAligned PageSize.mib2.bytes = true := by
  unfold mapLarge at hrun
  split at hrun
  · cases hrun
  · rename_i hr
    simp only [Bool.or_eq_true, not_or, Bool.not_eq_true', Bool.not_eq_false] at hr
    exact ⟨hr.1.2, hr.2⟩

theorem mapLarge_eq_error (hrun : m.mapLarge w root p v a = (.error x, m')) :
    m' = m ∨ m.writeLeaf root p v .pd a.encode.asLeaf.enlarged = (.error x, m') := by
  unfold mapLarge at hrun
  split at hrun
  · cases hrun
    exact .inl rfl
  · exact .inr hrun

/-- **A page that is mapped** has its leaf, and no other leaf moves. -/
theorem Owns.mapPage_ok (h : Owns used others root m)
    (hrun : m.mapPage w root p v a = (.ok (), m')) :
    Orderly used others root m m' ∧ m.memory.Extends root m'.memory ∧
      m'.memory.leaf root =
        Function.update (m.memory.leaf root) (v.trail 4) (some (.make p a.encode.asLeaf)) :=
  h.writeLeaf_ok (Entry.isLeafAt_make_asLeaf p _) (mapPage_eq_ok hrun).2.2

theorem Owns.leaf_mapPage (h : Owns used others root m)
    (hrun : m.mapPage w root p v a = (.ok (), m')) :
    m'.memory.leaf root (v.trail 4) = some (.make p a.encode.asLeaf) := by
  rw [(h.mapPage_ok hrun).2.2, Function.update_self]

theorem Owns.mapPage_error (h : Owns used others root m)
    (hrun : m.mapPage w root p v a = (.error x, m')) :
    Orderly used others root m m' ∧ m'.memory.slot root = m.memory.slot root := by
  rcases mapPage_eq_error hrun with rfl | hw
  · exact ⟨.refl h, rfl⟩
  · exact h.writeLeaf_error hw

theorem Owns.mapLarge_ok (h : Owns used others root m)
    (hrun : m.mapLarge w root p v a = (.ok (), m')) :
    Orderly used others root m m' ∧ m.memory.Extends root m'.memory ∧
      m'.memory.leaf root = Function.update (m.memory.leaf root) (v.trail 3)
        (some (.make p a.encode.asLeaf.enlarged)) :=
  h.writeLeaf_ok (Entry.isLeafAt_make_enlarged p _) (mapLarge_eq_ok hrun).2.2

theorem Owns.leaf_mapLarge (h : Owns used others root m)
    (hrun : m.mapLarge w root p v a = (.ok (), m')) :
    m'.memory.leaf root (v.trail 3) = some (.make p a.encode.asLeaf.enlarged) := by
  rw [(h.mapLarge_ok hrun).2.2, Function.update_self]

theorem Owns.mapLarge_error (h : Owns used others root m)
    (hrun : m.mapLarge w root p v a = (.error x, m')) :
    Orderly used others root m m' ∧ m'.memory.slot root = m.memory.slot root := by
  rcases mapLarge_eq_error hrun with rfl | hw
  · exact ⟨.refl h, rfl⟩
  · exact h.writeLeaf_error hw

/-! ## The prefix of a span -/

/-- **Maps the pages of a span up to the first that fails**, from the number `i` on, `left` of them.
The answer holds the number of the page that failed, or the number after the last, and the error. -/
def mapPrefix (w : Widths) (root : PAddr) (s : Span) (a : Attributes) (left i : Nat)
    (m : Machine α) : Nat × Option MapError × Machine α :=
  match left with
  | 0 => (i, none, m)
  | left + 1 =>
    match m.mapPage w root (s.phys.addPages i) (s.virt.addPages i) a with
    | (.ok (), m) => mapPrefix w root s a left (i + 1) m
    | (.error e, m) => (i, some e, m)

/-- **Mapping a span is mapping its prefix**, unwound if a page failed. -/
theorem mapSpanFrom_eq (left i : Nat) (m : Machine α) :
    m.mapSpanFrom w root s a left i =
      match m.mapPrefix w root s a left i with
      | (_, none, m) => (.ok (), m)
      | (n, some e, m) => (.error e, (m.note (.runFailed s.pages s.virt n e)).unwind root s.virt n) := by
  induction left generalizing i m with
  | zero => rfl
  | succ left ih =>
    rw [mapSpanFrom, mapPrefix]
    rcases m.mapPage w root (s.phys.addPages i) (s.virt.addPages i) a with ⟨_ | _, m'⟩
    · rfl
    · exact ih (i + 1) m'

theorem mapSpan_eq_ok (hrun : m.mapSpan w root s a = (.ok (), m')) :
    w.admitsPages s.virt s.pages = true ∧
      ∃ n, m.mapPrefix w root s a s.pages 0 = (n, none, m') := by
  unfold Machine.mapSpan at hrun
  split at hrun
  · cases hrun
  · rename_i hr
    rw [mapSpanFrom_eq] at hrun
    split at hrun
    · rename_i n m₁ hp
      cases hrun
      simp only [Bool.or_eq_true, not_or, Bool.not_eq_true', Bool.not_eq_false] at hr
      exact ⟨hr.1, n, hp⟩
    · cases hrun

/-- **The pages of a prefix are laid over the leaves**; the page that failed changes none. -/
theorem Owns.mapPrefix {left : Nat} {o : Option MapError} (h : Owns used others root m)
    (hrun : m.mapPrefix w root s a left i = (n, o, m')) :
    Orderly used others root m m' ∧ m.memory.Extends root m'.memory ∧
      i ≤ n ∧ n ≤ i + left ∧ (o = none → n = i + left) ∧
      m'.memory.leaf root = s.overlay a (n - i) i (m.memory.leaf root) ∧
      ∀ j, i ≤ j → j < n → w.admitsFrame (s.phys.addPages j) = true ∧
        w.admitsPage (s.virt.addPages j) = true := by
  -- on the pages left; later pages are laid over earlier ones
  induction left generalizing i m with
  | zero =>
    cases hrun
    refine ⟨.refl h, .refl _, Nat.le_refl _, Nat.le_refl _, fun _ => rfl, ?_, by omega⟩
    rw [Nat.sub_self]; rfl
  | succ left ih =>
    rw [Machine.mapPrefix] at hrun
    split at hrun
    · rename_i m₁ hp
      obtain ⟨ho, hx, hl⟩ := h.mapPage_ok hp
      obtain ⟨ho', hx', hi, hn, hnone, hl', had⟩ := ih ho.owns hrun
      refine ⟨ho.trans ho', hx.trans hx', by omega, by omega, fun h => ?_, ?_, fun j hj hj' => ?_⟩
      · have := hnone h; omega
      · rw [hl', hl, show n - i = n - (i + 1) + 1 by omega]
        rfl
      · rcases Nat.lt_or_eq_of_le hj with hj | rfl
        · exact had j hj hj'
        · exact ⟨(mapPage_eq_ok hp).1, (mapPage_eq_ok hp).2.1⟩
    · rename_i e m₁ hp
      cases hrun
      obtain ⟨ho, hs⟩ := h.mapPage_error hp
      refine ⟨ho, Memory.extends_of_slot hs, Nat.le_refl _, by omega, nofun, ?_, by omega⟩
      rw [Nat.sub_self, Memory.leaf, hs]; rfl

/-! ## Unwinding -/

theorem Owns.unmapPage_extends (h : Owns used others root m) (v : VAddr) :
    Orderly used others root m (m.unmapPage root v) ∧
      (m.unmapPage root v).memory.Extends root m.memory := by
  obtain ⟨ho, hc⟩ := h.unmapPage v
  refine ⟨ho, fun p t ht => ?_⟩
  rw [Memory.tableAt_eq_tableIn] at ht ⊢
  exact hc.tableIn ht

theorem unwind_succ (root : PAddr) (v : VAddr) (n : Nat) (m : Machine α) :
    m.unwind root v (n + 1) = (m.unwind root v n).unmapPage root (v.addPages n) := by
  rw [Machine.unwind, Nat.fold_succ]; rfl

/-- **Unwinding takes away the leaves of its pages**, where these are no part of larger pages. -/
theorem Owns.unwind (h : Owns used others root m) (v : VAddr) (count : Nat) :
    Orderly used others root m (m.unwind root v count) ∧
      (m.unwind root v count).memory.Extends root m.memory ∧
      ((∀ i < count, ∀ k, k ≠ 4 → m.memory.leaf root ((v.addPages i).trail k) = none) →
        ∀ p, (m.unwind root v count).memory.leaf root p =
          if ∃ i < count, p = (v.addPages i).trail 4 then none else m.memory.leaf root p) := by
  induction count with
  | zero =>
    refine ⟨.refl h, .refl _, fun _ p => ?_⟩
    rw [if_neg (by rintro ⟨i, hi, -⟩; omega)]; rfl
  | succ count ih =>
    obtain ⟨ho, hx, hl⟩ := ih
    rw [unwind_succ]
    obtain ⟨ho', hx'⟩ := ho.owns.unmapPage_extends (v.addPages count)
    refine ⟨ho.trans ho', hx'.trans hx, fun hn p => ?_⟩
    have hl := hl fun i hi => hn i (by omega)
    have hc := (ho.owns.unmapPage (v.addPages count)).2.leafIn_eq_update (k := 4) fun k hk => by
      have := hl ((v.addPages count).trail k)
      rw [hn count (Nat.lt_succ_self _) k hk, ite_self] at this
      exact this
    rw [Memory.leaf, hc]
    by_cases hp : p = (v.addPages count).trail 4
    · rw [hp, Function.update_self, if_pos ⟨count, Nat.lt_succ_self _, rfl⟩]
    · rw [Function.update_of_ne hp, ← Memory.leaf, hl p]
      congr 1
      refine propext ⟨?_, ?_⟩
      · rintro ⟨i, hi, he⟩
        exact ⟨i, by omega, he⟩
      · rintro ⟨i, hi, he⟩
        rcases Nat.lt_or_eq_of_le (Nat.le_of_lt_succ hi) with hi | rfl
        · exact ⟨i, hi, he⟩
        · exact absurd he hp

/-- **Unmapping a run of pages is unwinding it.** -/
theorem unmapPages_eq (h : w.admitsPages v count = true) (m : Machine α) :
    m.unmapPages w root v count = (.ok (), m.unwind root v count) := by
  have hv : (Block.containing v : Page .kib4).start = v :=
    Address.alignDown_of_isAligned (Widths.isAligned_of_admitsPage (Widths.of_admitsPages h).1)
  have hfold : ∀ n, Run.foldFrom (fun m page => m.unmapPage root page.start) n
      (Block.containing v : Page .kib4) m = m.unwind root v n := by
    intro n
    induction n with
    | zero => rfl
    | succ n ih =>
      have hpage : ((Block.containing v : Page .kib4).up n).start = v.addPages n := by
        rw [Block.start_up, hv]
        rfl
      rw [Run.foldFrom_succ, ih, hpage, unwind_succ]
  unfold Machine.unmapPages
  rw [h]
  exact Prod.ext rfl (hfold count)

theorem unmapPages_refused (h : w.admitsPages v count = false) (m : Machine α) :
    m.unmapPages w root v count = (.error .invalidAddress, m) := by
  rw [Machine.unmapPages, h]
  rfl

end Machine

end VirtualMemory
