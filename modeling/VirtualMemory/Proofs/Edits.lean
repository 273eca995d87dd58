import VirtualMemory.Proofs.Spans

/-!
# Calls as sequences of edits

Whatever a call does to a hierarchy, it does by four kinds of edits: a new table is linked, a leaf
is written, a leaf is taken out of use, or an empty table is unlinked and given back. Each is a
short sequence of writes and dealings with the source. What holds of every edit holds of every call.

* `Edit`, with its effect on the entries in use (`Edit.apply`);
* `Machine.Step`, `Machine.Steps`: the machine carries out edits (**`Owns.step`**, `Owns.steps`);
* `Machine.Synced`: it does so and has the processor forget each leaf in use that it touches;
* **`Owns.synced_writeLeaf_ok`**, **`Owns.synced_writeLeaf_error`**, **`Owns.synced_unmapPage`**:
  the edits that calls consist of;
* `Laid`: the entries in use after a leaf was written (**`Owns.laid_writeLeaf`**).
-/

namespace VirtualMemory

/-- **A change at one entry**: the entry `i` of the table at the path `q`. -/
inductive Edit where
  /-- The new table `child` is linked, as it is above a leaf with the flags `f`. -/
  | link (q : Path) (i : Index) (child : PAddr) (f : EntryFlags)
  | put (q : Path) (i : Index) (e : Entry)
  | clear (q : Path) (i : Index)
  | unlink (q : Path) (i : Index) (child : PAddr)

namespace Edit

/-- **What an edit does to the entries in use.** -/
def apply (s : Path → Option Entry) : Edit → Path → Option Entry
  | link q i child f => Function.update s (i :: q) (some (.make child f.asLink))
  | put q i e => Function.update s (i :: q) (some e)
  | clear q i => Function.update s (i :: q) none
  | unlink q i _ => Function.update s (i :: q) none

/-- The path of the entry that is written. -/
def path : Edit → Path
  | link q i .. | put q i _ | clear q i | unlink q i _ => i :: q

/-- The edit puts an entry to use. -/
def adds : Edit → Bool
  | link .. | put .. => true
  | clear .. | unlink .. => false

/-- The edit writes a leaf or takes one out of use. -/
def movesLeaf : Edit → Bool
  | put .. | clear .. => true
  | link .. | unlink .. => false

/-- The edit links a table on the trail of `v`, at most `n` steps down. -/
def LinksOn (v : VAddr) (n : Nat) (f : EntryFlags) (x : Edit) : Prop :=
  ∃ k c, k < n ∧ x = link (v.trail k) ((Level.ofHeight (3 - k)).index v) c f

def Unlinks (x : Edit) : Prop := ∃ q i c, x = unlink q i c

variable {v : VAddr} {n : Nat} {f : EntryFlags} {xs : List Edit}

theorem LinksOn.not_unlinks {x : Edit} (h : LinksOn v n f x) : ¬ Unlinks x := by
  rintro ⟨q, i, c, rfl⟩
  obtain ⟨k, c', -, he⟩ := h
  cases he

theorem LinksOn.adds {x : Edit} (h : LinksOn v n f x) : x.adds = true := by
  obtain ⟨k, c, -, rfl⟩ := h
  rfl

theorem Unlinks.adds {x : Edit} (h : x.Unlinks) : x.adds = false := by
  obtain ⟨q, i, c, rfl⟩ := h
  rfl

theorem countP_of_linksOn (h : ∀ x ∈ xs, LinksOn v n f x) : xs.countP movesLeaf = 0 := by
  rw [List.countP_eq_zero]
  intro x hx
  obtain ⟨k, c, -, rfl⟩ := h x hx
  exact Bool.false_ne_true

theorem countP_of_unlinks (h : ∀ x ∈ xs, Unlinks x) : xs.countP movesLeaf = 0 := by
  rw [List.countP_eq_zero]
  intro x hx
  obtain ⟨q, i, c, rfl⟩ := h x hx
  exact Bool.false_ne_true

end Edit

namespace Machine

variable {α : Type} [FrameSource α] {used others : Set PAddr} {root t c u p : PAddr}
  {q : Path} {i : Index} {v : VAddr} {d n : Nat} {f : EntryFlags} {x : Edit} {xs ys : List Edit}
  {made made' : List NewTable} {m m' m'' m₀ m₁ : Machine α}

/-! ## Steps -/

/-- **A step that changes no entry and no frame.** -/
inductive Quiet : Machine α → Machine α → Prop where
  | note (m : Machine α) (n : Notice) : Quiet m (m.note n)
  | flush (m : Machine α) (v : VAddr) : Quiet m (m.flush v)
  | refused {m m' : Machine α} (request : m.allocate = (none, m')) : Quiet m m'

/-- **How the machine carries out an edit** of the hierarchy with the root `root`. A new table is
zeroed before it is linked, and an old one unlinked before its frame goes back. -/
inductive Step (root : PAddr) : Edit → Machine α → Machine α → Prop where
  | link {m m₁ : Machine α} {q : Path} {i : Index} {t c : PAddr} (f : EntryFlags)
      (parent : m.memory.tableAt root q = some t) (above : Path.level q ≠ .pt)
      (vacant : m.memory.slot root (i :: q) = none) (request : m.allocate = (some c, m₁)) :
      Step root (.link q i c f) m ((m₁.zero c).write t i (.make c f.asLink))
  | put {m : Machine α} {q : Path} {i : Index} {t : PAddr} {e : Entry}
      (parent : m.memory.tableAt root q = some t) (free : m.memory.tableAt root (i :: q) = none)
      (leaf : e.isPresent = true ∧ e.isLeafAt (Path.level q) = true) :
      Step root (.put q i e) m (m.write t i e)
  | clear {m : Machine α} {q : Path} {i : Index} {t : PAddr}
      (parent : m.memory.tableAt root q = some t)
      (leaf : (m.entry t i).role (Path.level q) = .leaf) :
      Step root (.clear q i) m (m.disable t i)
  | unlink {m : Machine α} {q : Path} {i : Index} {t c : PAddr} (notices : List Notice)
      (parent : m.memory.tableAt root q = some t)
      (child : m.memory.tableAt root (i :: q) = some c)
      (empty : ∀ j, m.memory.slot root (j :: i :: q) = none) :
      Step root (.unlink q i c) m ((notices.foldl note (m.disable t i)).release c)

/-- **The machine carries out edits in order**, with quiet steps between them. -/
inductive Steps (root : PAddr) : List Edit → Machine α → Machine α → Prop where
  | refl (m : Machine α) : Steps root [] m m
  | quiet {xs : List Edit} {m m₁ m' : Machine α} (first : Quiet m m₁) (rest : Steps root xs m₁ m') :
      Steps root xs m m'
  | edit {x : Edit} {xs : List Edit} {m m₁ m' : Machine α} (first : Step root x m m₁)
      (rest : Steps root xs m₁ m') : Steps root (x :: xs) m m'

/-- **A step that neither a walk nor the processor notices.** -/
inductive Silent : Machine α → Machine α → Prop where
  | note (m : Machine α) (n : Notice) : Silent m (m.note n)
  | refused {m m' : Machine α} (request : m.allocate = (none, m')) : Silent m m'

/-- **The machine carries out edits and keeps the processor informed.** Right after each edit at the
place of a leaf in use, the processor is made to forget an address in `V` on whose trail the place
lies, and at no other time. -/
inductive Synced (V : Set VAddr) (root : PAddr) : List Edit → Machine α → Machine α → Prop where
  | refl (m : Machine α) : Synced V root [] m m
  | silent {xs : List Edit} {m m₁ m' : Machine α} (first : Silent m m₁)
      (rest : Synced V root xs m₁ m') : Synced V root xs m m'
  | idle {x : Edit} {xs : List Edit} {m m₁ m' : Machine α} (first : Step root x m m₁)
      (free : m.memory.leaf root x.path = none) (rest : Synced V root xs m₁ m') :
      Synced V root (x :: xs) m m'
  | busy {x : Edit} {xs : List Edit} {m m₁ m' : Machine α} {v : VAddr} (first : Step root x m m₁)
      (used : m.memory.leaf root x.path ≠ none) (known : v ∈ V)
      (here : x.path = v.trail x.path.length) (rest : Synced V root xs (m₁.flush v) m') :
      Synced V root (x :: xs) m m'

namespace Steps

theorem append (h : Steps root xs m m') (h' : Steps root ys m' m'') :
    Steps root (xs ++ ys) m m'' := by
  induction h with
  | refl => exact h'
  | quiet first _ ih => exact .quiet first (ih h')
  | edit first _ ih => exact .edit first (ih h')

end Steps

theorem Silent.quiet (h : Silent m m') : Quiet m m' := by
  cases h with
  | note n => exact .note m n
  | refused request => exact .refused request

namespace Synced

variable {V : Set VAddr}

theorem ofSilent (h : Silent m m') : Synced V root [] m m' := .silent h (.refl m')

theorem append (h : Synced V root xs m m') (h' : Synced V root ys m' m'') :
    Synced V root (xs ++ ys) m m'' := by
  induction h with
  | refl => exact h'
  | silent first _ ih => exact .silent first (ih h')
  | idle first free _ ih => exact .idle first free (ih h')
  | busy first used known here _ ih => exact .busy first used known here (ih h')

theorem steps (h : Synced V root xs m m') : Steps root xs m m' := by
  induction h with
  | refl m => exact .refl m
  | silent first _ ih => exact .quiet first.quiet ih
  | idle first _ _ ih => exact .edit first ih
  | busy first _ _ _ _ ih => exact .edit first (.quiet (.flush _ _) ih)

end Synced

/-- **A table comes or goes where no leaf is.** -/
theorem Step.leaf_eq_none (hx : Step root x m m') (hl : x.movesLeaf = false) :
    m.memory.leaf root x.path = none := by
  cases hx with
  | link f parent above vacant request => exact leafIn_eq_none_of_slot vacant
  | unlink notices parent child empty =>
    rw [Memory.tableAt_eq_tableIn] at child
    exact leafIn_eq_none_of_tableIn child
  | put => cases hl
  | clear => cases hl

theorem Step.leaf_ne_none (hx : Step root (.clear q i) m m') :
    m.memory.leaf root (i :: q) ≠ none := by
  cases hx with
  | clear parent leaf => exact (Memory.leaf_cons_ne_none_iff parent).2 leaf

theorem Owns.quiet (h : Owns used others root m) (hq : Quiet m m') :
    Owns used others root m' ∧ m'.memory = m.memory := by
  cases hq with
  | note n => exact ⟨h.congr (memory_note m n) (frames_note m n), memory_note m n⟩
  | flush v => exact ⟨h.congr rfl rfl, rfl⟩
  | refused request =>
    have hr : _ ∧ _ ∧ Confined ∅ m m' := h.refused request
    exact ⟨hr.1, hr.2.1⟩

/-- **An edit keeps the frames owned** and has its effect on the entries in use. -/
theorem Owns.step (h : Owns used others root m) (hx : Step root x m m') :
    Owns used others root m' ∧ m'.memory.slot root = x.apply (m.memory.slot root) := by
  cases hx with
  | @link _ m₁ q i t c f parent above vacant request =>
    obtain ⟨ho, hs, -⟩ := h.link parent above vacant request f
      (memory_write (m₁.zero c) t i (.make c f.asLink)) rfl
    exact ⟨ho, hs⟩
  | put parent free leaf =>
    obtain ⟨ho, hs, -⟩ := h.put parent free (Entry.link?_of_isLeafAt leaf.2)
      (memory_write m _ _ _) rfl
    rw [Entry.inUse?_of_isPresent leaf.1] at hs
    exact ⟨ho, hs⟩
  | clear parent leaf =>
    obtain ⟨ho, hs, -⟩ := h.clear parent leaf
    exact ⟨ho, hs⟩
  | unlink notices parent child empty =>
    obtain ⟨hm, hf⟩ := notices_eq notices (m.disable _ _)
    obtain ⟨ho, hs, -⟩ := h.unlink parent child empty hm hf
    exact ⟨ho, hs⟩

theorem Owns.steps (h : Owns used others root m) (hx : Steps root xs m m') :
    Owns used others root m' ∧ m'.memory.slot root = xs.foldl Edit.apply (m.memory.slot root) := by
  induction hx with
  | refl => exact ⟨h, rfl⟩
  | quiet first _ ih =>
    obtain ⟨ho, hm⟩ := h.quiet first
    exact hm ▸ ih ho
  | edit first _ ih =>
    obtain ⟨ho, hs⟩ := h.step first
    rw [List.foldl_cons, ← hs]
    exact ih ho

/-- **Tables come and go without moving a leaf.** -/
theorem Owns.leaf_step (h : Owns used others root m) (hx : Step root x m m')
    (hl : x.movesLeaf = false) : m'.memory.leaf root = m.memory.leaf root := by
  obtain ⟨ho, hs⟩ := h.step hx
  rw [Memory.leaf, Memory.leaf, hs]
  cases hx with
  | @link _ m₁ q i t c f parent above vacant request =>
    obtain ⟨-, -, ht, -⟩ := h.link parent above vacant request f
      (memory_write (m₁.zero c) t i (.make c f.asLink)) rfl
    apply leafIn_update_of_link vacant
    have hc := congrFun ht (i :: q)
    rwa [Function.update_self, Memory.tableAt_eq_tableIn, tableIn, hs, Edit.apply,
      Function.update_self] at hc
  | @unlink _ q i t c notices parent child empty =>
    rw [Memory.tableAt_eq_tableIn] at child
    rw [Edit.apply, leafIn_update, Option.filter_none, ← leafIn_eq_none_of_tableIn child]
    exact Function.update_eq_self _ _
  | put => cases hl
  | clear => cases hl

theorem Owns.leaf_steps (h : Owns used others root m) (hx : Steps root xs m m')
    (hl : xs.countP Edit.movesLeaf = 0) : m'.memory.leaf root = m.memory.leaf root := by
  induction hx with
  | refl => rfl
  | quiet first _ ih =>
    obtain ⟨ho, hm⟩ := h.quiet first
    rw [ih ho hl, hm]
  | @edit x xs _ _ _ first _ ih =>
    rw [List.countP_cons, Nat.add_eq_zero_iff] at hl
    have hx : x.movesLeaf = false := by
      have := hl.2
      split at this
      · cases this
      · rename_i hn
        exact Bool.not_eq_true _ ▸ hn
    rw [ih (h.step first).1 hl.1, h.leaf_step first hx]

/-! ## The edits of a call that maps a page -/

variable {V : Set VAddr}

theorem Descent.synced_makePath {leaf : Level} {r : Except MapError PAddr}
    (h : Descent used others root v m₀ d t made m) (hd : d + (leaf.height + n) = 3)
    (hrun : m.makePath v f.asLink leaf n t made = (r, made', m')) :
    ∃ xs, Synced V root xs m m' ∧ ∀ x ∈ xs, x.LinksOn v (3 - leaf.height) f := by
  induction n generalizing d t made m with
  | zero =>
    cases hrun
    exact ⟨[], .refl _, nofun⟩
  | succ n ih =>
    have hd' : d + (leaf.height + n + 1) = 3 := by omega
    have he := h.inUse?_eq hd'
    rw [Machine.makePath] at hrun
    generalize (if made.isEmpty then m.entry t ((Level.ofHeight (leaf.height + n + 1)).index v)
      else Entry.empty) = e at he hrun
    simp only at hrun
    split at hrun
    · cases hrun
      exact ⟨[], .refl _, nofun⟩
    · rename_i child hr
      exact ih (h.follow hd' he (Entry.link?_eq_some_iff.2 hr)) (by omega) hrun
    · rename_i hr
      have hs : m.memory.slot root (v.trail (d + 1)) = none := by
        rw [← he, Entry.inUse?_of_not_isPresent ((Entry.role_eq_absent_iff _ _).1 hr)]
      split at hrun
      · rename_i m₁ ha
        cases hrun
        exact ⟨[], .ofSilent (.refused ha), nofun⟩
      · rename_i child m₁ ha
        obtain ⟨xs, hx, hl⟩ := ih (h.make hd' (Nat.succ_ne_zero _) hs ha f _) (by omega) hrun
        have habove := v.level_trail_ne_pt (show d < 3 by omega)
        have hlevel : Level.ofHeight (leaf.height + n + 1) = Level.ofHeight (3 - d) := by
          rw [← hd', Nat.add_sub_cancel_left]
        rw [v.trail_succ hd'] at hs
        have hlink := Step.link f h.here habove hs ha
        refine ⟨_ :: xs, .idle hlink (hlink.leaf_eq_none rfl) (.silent (.note _ _) hx), ?_⟩
        intro x hx
        rcases List.mem_cons.1 hx with rfl | hx
        · exact ⟨d, child, by omega, by rw [hlevel]⟩
        · exact hl x hx

theorem step_takeBack_newest {s₀ : Path → Option Entry} {new : NewTable}
    (hc : Chain root s₀ (new :: made) (m.memory.slot root)) :
    ∃ q, Step root (.unlink q new.index new.table) m
      ((m.disable new.parent new.index).release new.table) := by
  generalize hs : m.memory.slot root = s at hc
  cases hc with
  | @cons _ s q i t c e rest parent vacant below link =>
    refine ⟨q, .unlink [] ?_ ?_ fun j => ?_⟩
    · rw [Memory.tableAt_eq_tableIn, hs, tableIn_update,
        Function.update_of_ne (List.cons_ne_self i q).symm, parent]
    · rw [Memory.tableAt_eq_tableIn, hs, tableIn_update, Function.update_self]
      exact link
    · rw [hs, Function.update_of_ne (List.cons_ne_self j (i :: q)), below]

theorem Owns.synced_takeBack {s₀ : Path → Option Entry} (h : Owns used others root m)
    (hc : Chain root s₀ made (m.memory.slot root)) :
    ∃ xs, Synced V root xs m (m.takeBack made) ∧ ∀ x ∈ xs, x.Unlinks := by
  have key : ∀ (made : List NewTable) (m : Machine α), Owns used others root m →
      Chain root s₀ made (m.memory.slot root) → ∃ xs, Synced V root xs m
        (made.foldl (fun m t => (m.disable t.parent t.index).release t.table) m) ∧
        ∀ x ∈ xs, x.Unlinks := by
    intro made
    induction made with
    | nil => exact fun m _ _ => ⟨[], .refl m, nofun⟩
    | cons new made ih =>
      intro m h hc
      obtain ⟨q, hx⟩ := step_takeBack_newest hc
      obtain ⟨ho, hc', -⟩ := h.takeBack_newest hc
      obtain ⟨xs, hxs, hu⟩ := ih _ ho hc'
      exact ⟨_ :: xs, .idle hx (hx.leaf_eq_none rfl) hxs,
        List.forall_mem_cons.2 ⟨⟨q, _, _, rfl⟩, hu⟩⟩
  unfold Machine.takeBack
  split
  · exact ⟨[], .refl m, nofun⟩
  · obtain ⟨xs, hx, hu⟩ := key made (m.note (.takingBack made.length))
      (h.congr (memory_note _ _) (frames_note _ _)) (by rwa [memory_note])
    exact ⟨xs, .silent (.note _ _) hx, hu⟩

variable {leaf : Level}

/-- **A call that fails** links tables on its trail and unlinks them again. -/
theorem Owns.synced_writeLeaf_error {e : MapError} (h : Owns used others root m)
    (hrun : m.writeLeaf root p v leaf f = (.error e, m')) :
    ∃ xs ys m₁, Synced V root xs m m₁ ∧ (∀ x ∈ xs, x.LinksOn v (3 - leaf.height) f) ∧
      Synced V root ys m₁ m' ∧ ∀ y ∈ ys, y.Unlinks := by
  have hd : 0 + (leaf.height + (3 - leaf.height)) = 3 := by cases leaf <;> rfl
  obtain ⟨r, made, m₁, hp, rfl⟩ := writeLeaf_eq_error hrun
  obtain ⟨-, ho, hc, -⟩ := (Descent.start h).makePath hd hp
  obtain ⟨xs, hx, hl⟩ := (Descent.start h).synced_makePath hd hp
  obtain ⟨ys, hy, hu⟩ := ho.synced_takeBack hc
  exact ⟨xs, ys, m₁, hx, hl, hy, hu⟩

/-- **A call that goes through** links tables on its trail and writes its leaf last. -/
theorem Owns.synced_writeLeaf_ok (h : Owns used others root m) (hv : v ∈ V)
    (hf : (Entry.make p f).isPresent = true ∧ (Entry.make p f).isLeafAt leaf = true)
    (hrun : m.writeLeaf root p v leaf f = (.ok (), m')) :
    ∃ xs m₁ m₂, Synced V root xs m m₁ ∧ (∀ x ∈ xs, x.LinksOn v (3 - leaf.height) f) ∧
      Step root (.put (v.trail (3 - leaf.height)) (leaf.index v) (.make p f)) m₁ m₂ ∧
      m'.memory = m₂.memory ∧
      Synced V root [.put (v.trail (3 - leaf.height)) (leaf.index v) (.make p f)] m₁ m' := by
  have hd : 0 + (leaf.height + (3 - leaf.height)) = 3 := by cases leaf <;> rfl
  have hl := v.level_trail_height leaf
  obtain ⟨u, made, m₁, hp, hwritten⟩ := writeLeaf_eq_ok hrun
  obtain ⟨hD, -⟩ := (Descent.start h).makePath hd hp
  have hD := hD u rfl
  obtain ⟨xs, hx, hlinks⟩ := (Descent.start h).synced_makePath (V := V) hd hp
  have hput : (m₁.entry u (leaf.index v)).link? leaf = none →
      Step root (.put (v.trail (3 - leaf.height)) (leaf.index v) (.make p f)) m₁
        (m₁.write u (leaf.index v) (.make p f)) := by
    intro hn
    refine .put hD.here ?_ (hl.symm ▸ hf)
    rw [Memory.tableAt_cons hD.here, hl]
    exact hn
  have hleaf := Memory.leaf_cons_ne_none_iff (i := leaf.index v) hD.here
  rw [hl] at hleaf
  rcases hwritten with ⟨hr, rfl⟩ | ⟨hr, rfl⟩
  · have hput := hput (by rw [Entry.link?, hr])
    have hfree : m₁.memory.leaf root (leaf.index v :: v.trail (3 - leaf.height)) = none := by
      by_contra hn
      cases hr.symm.trans (hleaf.1 hn)
    exact ⟨xs, m₁, _, hx, hlinks, hput, rfl, .idle hput hfree (.refl _)⟩
  · have hput := hput (by rw [Entry.link?, hr])
    have hhere : leaf.index v :: v.trail (3 - leaf.height) =
        v.trail (leaf.index v :: v.trail (3 - leaf.height)).length := by
      rw [List.length_cons, Address.length_trail, Level.succ_depth, v.trail_height]
    exact ⟨xs, m₁, _, hx, hlinks, hput, rfl, .busy hput (hleaf.2 hr) hv hhere (.refl _)⟩

/-! ## The edits of a removal -/

/-- **Removing a page** takes at most one leaf out of use, and then unlinks tables. -/
theorem Owns.synced_unmapPage (h : Owns used others root m) (hv : v ∈ V) :
    ∃ xs ys, Synced V root (xs ++ ys) m (m.unmapPage root v) ∧
      (xs = [] ∨ ∃ q i, xs = [.clear q i]) ∧ ∀ y ∈ ys, y.Unlinks := by
  refine (h.removeFrom_induction (v := v) (d := 0) (n := 3)
    (motive := fun _ m' => ∃ xs ys, Synced V root (xs ++ ys) m m' ∧
      (xs = [] ∨ ∃ q i, xs = [.clear q i]) ∧ ∀ y ∈ ys, y.Unlinks)
    (fun _ _ => ⟨[], [], .refl m, .inl rfl, nofun⟩) (fun d n t hd ht hr => ?_)
    (fun _ _ _ ih _ => ih) (fun d n t c m' x hd _ ih ht hc hb => ?_) rfl Memory.tableAt_nil).2
  · have hx : Step root (.clear (v.trail d) ((Level.ofHeight n).index v)) m
        (m.disable t ((Level.ofHeight n).index v)) := .clear ht (by rwa [v.level_trail_of hd])
    have hhere : (Level.ofHeight n).index v :: v.trail d =
        v.trail ((Level.ofHeight n).index v :: v.trail d).length := by
      rw [List.length_cons, Address.length_trail, v.trail_succ hd]
    exact ⟨[_], [], .busy hx hx.leaf_ne_none hv hhere (.refl _), .inr ⟨_, _, rfl⟩, nofun⟩
  · obtain ⟨xs, ys, hs, hxs, hys⟩ := ih
    rw [v.trail_succ hd] at hc hb
    have hu := Step.unlink [x] ht hc hb
    refine ⟨xs, _, List.append_assoc xs ys _ ▸ hs.append (.idle hu (hu.leaf_eq_none rfl) (.refl _)),
      hxs, fun y hy => ?_⟩
    rcases List.mem_append.1 hy with hy | hy
    · exact hys y hy
    · exact ⟨_, _, c, List.mem_singleton.1 hy⟩

end Machine

/-! ## What is in use after a leaf was written -/

/-- **The entries in use after tables were linked** on the trail of `v`, at most `n` steps down. -/
def Linked (v : VAddr) (n : Nat) (f : EntryFlags) (s s' : Path → Option Entry) : Prop :=
  ∀ p, s' p = s p ∨
    s p = none ∧ ∃ k c, k < n ∧ p = v.trail (k + 1) ∧ s' p = some (.make c f.asLink)

theorem Linked.slot {v : VAddr} {n : Nat} {f : EntryFlags}
    {s s' : Path → Option Entry} {q : Path} {e : Entry} (h : Linked v n f s s')
    (he : s q = some e) : s' q = some e := by
  rcases h q with hq | ⟨hq, -⟩
  · rw [hq, he]
  · rw [hq] at he; cases he

theorem Linked.tableIn {root t : PAddr} {v : VAddr} {n : Nat} {f : EntryFlags}
    {s s' : Path → Option Entry} {q : Path} (h : Linked v n f s s')
    (ht : tableIn root s q = some t) : VirtualMemory.tableIn root s' q = some t := by
  cases q with
  | nil => exact ht
  | cons i q =>
    obtain ⟨e, he, hl⟩ := Option.bind_eq_some_iff.1 ht
    rw [VirtualMemory.tableIn, h.slot he]
    exact hl

/-- **The entries in use after a leaf was written** at depth `n + 1` of the trail of `v`: the leaf,
and links above it where nothing was in use. -/
structure Laid (root : PAddr) (v : VAddr) (n : Nat) (f : EntryFlags) (p : PAddr)
    (s s' : Path → Option Entry) : Prop where
  leaf : s' (v.trail (n + 1)) = some (.make p f)
  isLeaf : (Entry.make p f).isLeafAt (Path.level (v.trail n)) = true
  other : ∀ q, q ≠ v.trail (n + 1) → s' q = s q ∨
    s q = none ∧ ∃ k c, k < n ∧ q = v.trail (k + 1) ∧ s' q = some (.make c f.asLink)
  free : tableIn root s (v.trail (n + 1)) = none

namespace Laid

variable {root p t : PAddr} {v : VAddr} {n : Nat} {f : EntryFlags}
  {s s' : Path → Option Entry} {mem mem' : Memory} {i j : Index} {q r : Path} {e : Entry}

theorem leafIn (h : Laid root v n f p s s') :
    VirtualMemory.leafIn s' (v.trail (n + 1)) = some (.make p f) := by
  have hleaf := h.leaf
  rw [Address.trail] at hleaf
  rw [Address.trail, VirtualMemory.leafIn, hleaf, Option.filter_some, if_pos h.isLeaf]

/-- An entry in use is the leaf, or it was in use before, or it is a new link. -/
theorem cases (h : Laid root v n f p s s') (he : s' q = some e) :
    (q = v.trail (n + 1) ∧ e = .make p f) ∨ (q ≠ v.trail (n + 1) ∧ s q = some e) ∨
      (s q = none ∧ ∃ k c, k < n ∧ q = v.trail (k + 1) ∧ e = .make c f.asLink) := by
  by_cases hq : q = v.trail (n + 1)
  · subst hq
    rw [h.leaf] at he
    exact .inl ⟨rfl, (Option.some.inj he).symm⟩
  · rcases h.other q hq with hs | ⟨hs, k, c, hk, rfl, hs'⟩
    · exact .inr (.inl ⟨hq, hs.symm.trans he⟩)
    · rw [hs'] at he
      exact .inr (.inr ⟨hs, k, c, hk, rfl, (Option.some.inj he).symm⟩)

theorem slot_off (h : Laid root v n f p s s') (hq : ∀ k, 0 < k → q ≠ v.trail k) : s' q = s q := by
  refine (h.other q (hq _ (Nat.succ_pos n))).resolve_right ?_
  rintro ⟨-, k, c, -, he, -⟩
  exact hq _ (Nat.succ_pos k) he

theorem link (h : Laid root v n f p s s') (ht : tableIn root s (i :: q) = some t) :
    s' (i :: q) = s (i :: q) := by
  have hq : i :: q ≠ v.trail (n + 1) := by
    intro he
    rw [he, h.free] at ht
    cases ht
  apply (h.other _ hq).resolve_right
  intro hn
  rw [tableIn, hn.1] at ht
  cases ht

theorem slot_above (h : Laid root v n f p (mem.slot root) (mem'.slot root))
    (he : mem.slot root (i :: q) = some e) (hr : j :: r <:+ q) :
    mem'.slot root (j :: r) = mem.slot root (j :: r) := by
  obtain ⟨t, ht, -⟩ := Memory.exists_tableAt_of_slot he
  obtain ⟨t', ht'⟩ := Memory.exists_tableAt_of_suffix hr ht
  rw [Memory.tableAt_eq_tableIn] at ht'
  exact h.link ht'

end Laid

namespace Machine

variable {α : Type} [FrameSource α] {used others : Set PAddr} {root p : PAddr} {v : VAddr}
  {n : Nat} {f : EntryFlags} {xs : List Edit} {leaf : Level} {w : Widths} {a : Attributes}
  {m m' : Machine α}

theorem Owns.linked_steps (h : Owns used others root m) (hx : Steps root xs m m')
    (hl : ∀ x ∈ xs, x.LinksOn v n f) :
    Linked v n f (m.memory.slot root) (m'.memory.slot root) := by
  induction hx with
  | refl => exact fun _ => .inl rfl
  | quiet first _ ih =>
    obtain ⟨ho, hm⟩ := h.quiet first
    exact hm ▸ ih ho hl
  | edit first _ ih =>
    obtain ⟨⟨k, c, hk, rfl⟩, hrest⟩ := List.forall_mem_cons.1 hl
    obtain ⟨ho, hs⟩ := h.step first
    intro p
    have hp := ih ho hrest p
    cases first with
    | link f parent above vacant request =>
      -- the rest of the edits keep what this one has put in its place
      by_cases he : p = v.trail (k + 1)
      · subst he
        rw [hs, Edit.apply, ← Address.trail, Function.update_self] at hp
        refine .inr ⟨vacant, k, c, hk, rfl, ?_⟩
        exact hp.resolve_right fun hn => Option.some_ne_none _ hn.1
      · rwa [hs, Edit.apply, ← Address.trail, Function.update_of_ne he] at hp

theorem Owns.laid_writeLeaf (h : Owns used others root m)
    (hf : (Entry.make p f).isPresent = true ∧ (Entry.make p f).isLeafAt leaf = true)
    (hrun : m.writeLeaf root p v leaf f = (.ok (), m')) :
    Laid root v (3 - leaf.height) f p (m.memory.slot root) (m'.memory.slot root) := by
  have ht : v.trail (3 - leaf.height + 1) = leaf.index v :: v.trail (3 - leaf.height) := by
    rw [leaf.succ_depth, v.trail_height]
  obtain ⟨xs, m₁, m₂, hx, hl, hput, hm, -⟩ :=
    h.synced_writeLeaf_ok (V := .univ) (Set.mem_univ v) hf hrun
  have hlinks := h.linked_steps hx.steps hl
  obtain ⟨-, hs⟩ := (h.steps hx.steps).1.step hput
  rw [Edit.apply, ← ht, ← hm] at hs
  refine ⟨by rw [hs, Function.update_self], ?_, fun q hq => ?_, ?_⟩
  · rw [v.level_trail_height]
    exact hf.2
  · rw [hs, Function.update_of_ne hq]
    exact hlinks q
  · cases hput with
    | put parent free leaf =>
      rw [← ht, Memory.tableAt_eq_tableIn] at free
      rw [Option.eq_none_iff_forall_ne_some]
      intro t htable
      rw [hlinks.tableIn htable] at free
      cases free

theorem Owns.laid_mapPage (h : Owns used others root m)
    (hrun : m.mapPage w root p v a = (.ok (), m')) :
    Laid root v 3 a.encode.asLeaf p (m.memory.slot root) (m'.memory.slot root) :=
  h.laid_writeLeaf (Entry.isLeafAt_make_asLeaf p _) (mapPage_eq_ok hrun).2.2

theorem Owns.laid_mapLarge (h : Owns used others root m)
    (hrun : m.mapLarge w root p v a = (.ok (), m')) :
    Laid root v 2 a.encode.asLeaf.enlarged p (m.memory.slot root) (m'.memory.slot root) :=
  h.laid_writeLeaf (Entry.isLeafAt_make_enlarged p _) (mapLarge_eq_ok hrun).2.2

end Machine

end VirtualMemory
