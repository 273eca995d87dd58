import VirtualMemory.Proofs.Lockstep

/-!
# Hierarchies that correspond

Two machines hold hierarchies that are the same up to the names of their frames. This is said of
whole hierarchies, by their paths; calls go through it table by table. The two views are the same.

* `Machine.Grove`: well-formed hierarchies that share no table;
* **`Corresponds`**: two groves that are the same up to a renaming of their tables;
* **`Corresponds.exists_twins`**, **`Pair.Twins.corresponds`**: the machines of corresponding groves
  are twins, and the other way round.
-/

namespace VirtualMemory

namespace Machine

variable {α : Type} [FrameSource α] {used roots : Set PAddr} {m : Machine α}
  {r r' t : PAddr} {p q : Path}

/-- **Well-formed hierarchies that share no table.** -/
structure Grove (used roots : Set PAddr) (m : Machine α) : Prop where
  wellFormed : ∀ r ∈ roots, WellFormed used r m
  apart : ∀ r ∈ roots, ∀ r' ∈ roots, r ≠ r' → ∀ p q t, m.memory.tableAt r p = some t →
    m.memory.tableAt r' q ≠ some t

namespace Grove

variable (h : Grove used roots m)

include h

theorem place_unique (hr : r ∈ roots) (hr' : r' ∈ roots) (hp : m.memory.tableAt r p = some t)
    (hq : m.memory.tableAt r' q = some t) : r = r' ∧ p = q := by
  by_cases he : r = r'
  · subst he
    exact ⟨rfl, (h.wellFormed r hr).tree p q t hp hq⟩
  · exact absurd hq (h.apart r hr r' hr' he p q t hp)

theorem exists_height : ∃ height : PAddr → Nat, ∀ r ∈ roots, ∀ p t,
    m.memory.tableAt r p = some t → height t = 3 - p.length := by
  have hplace : ∀ t, ∃ n, ∀ r ∈ roots, ∀ p, m.memory.tableAt r p = some t → n = 3 - p.length := by
    intro t
    by_cases ht : ∃ r ∈ roots, ∃ p, m.memory.tableAt r p = some t
    · obtain ⟨r, hr, p, hp⟩ := ht
      exact ⟨3 - p.length, fun r' hr' q hq => by rw [(h.place_unique hr hr' hp hq).2]⟩
    · exact ⟨0, fun r hr p hp => absurd ⟨r, hr, p, hp⟩ ht⟩
  choose height hheight using hplace
  exact ⟨height, fun r hr p t hp => hheight t r hr p hp⟩

end Grove

end Machine

variable {α β : Type} [FrameSource α] [FrameSource β] {used used' : Set PAddr}
  {roots : List (PAddr × PAddr)} {ρ : Renaming} {m : Machine α} {m' : Machine β}
  {r r' t t' c : PAddr} {p q : Path} {i : Index}

/-- **Two groves that are the same up to a renaming of their tables**, one to one and with the pairs of
roots in `roots`. Of frames that hold no table nothing is asked. -/
structure Corresponds (used used' : Set PAddr) (roots : List (PAddr × PAddr)) (ρ : Renaming)
    (m : Machine α) (m' : Machine β) : Prop where
  left : m.Grove used {r | ∃ r', (r, r') ∈ roots}
  right : m'.Grove used' {r' | ∃ r, (r, r') ∈ roots}
  oneToOne : ρ.OneToOne
  tables : ∀ t, (∃ t', ρ t = some t') ↔
    ∃ r r' p, (r, r') ∈ roots ∧ m.memory.tableAt r p = some t
  tables' : ∀ t', (∃ t, ρ t = some t') ↔
    ∃ r r' p, (r, r') ∈ roots ∧ m'.memory.tableAt r' p = some t'
  root : ∀ r r', (r, r') ∈ roots → ρ r = some r'
  agree : ∀ r r' p t t', (r, r') ∈ roots → m.memory.tableAt r p = some t → ρ t = some t' →
    ∀ i, Entry.Agree ρ (Path.level p) (m.entry t i) (m'.entry t' i)

/-! ## From hierarchies to tables -/

namespace Corresponds

theorem tableAt (h : Corresponds used used' roots ρ m m') (hr : (r, r') ∈ roots)
    (ht : m.memory.tableAt r p = some t) :
    ∃ t', ρ t = some t' ∧ m'.memory.tableAt r' p = some t' := by
  induction p generalizing t with
  | nil =>
    cases ht
    exact ⟨r', h.root _ r' hr, rfl⟩
  | cons i p ih =>
    obtain ⟨u, hu, hlink⟩ := Memory.tableAt_cons_eq_some_iff.1 ht
    obtain ⟨u', hname, hu'⟩ := ih hu
    cases h.agree r r' p u u' hr hu hname i with
    | absent left => cases left.symm.trans hlink
    | leaf left => cases left.symm.trans hlink
    | @link c c' left right named =>
      obtain rfl : c = t := Role.link.inj (left.symm.trans hlink)
      exact ⟨c', named, Memory.tableAt_cons_eq_some_iff.2 ⟨u', hu', right⟩⟩

section Heights

variable (h : Corresponds used used' roots ρ m m') {height : PAddr → Nat}
  (hheight : ∀ r r' p t, (r, r') ∈ roots → m.memory.tableAt r p = some t →
    height t = 3 - p.length)

include h hheight

theorem exists_place (ht : ρ t = some t') : ∃ r r' p, (r, r') ∈ roots ∧
    m.memory.tableAt r p = some t ∧ m'.memory.tableAt r' p = some t' ∧
    height t = 3 - p.length := by
  obtain ⟨r, r', p, hr, hp⟩ := (h.tables t).1 ⟨t', ht⟩
  obtain ⟨u', hu, hp'⟩ := h.tableAt hr hp
  obtain rfl : t' = u' := Option.some.inj (ht.symm.trans hu)
  exact ⟨r, r', p, hr, hp, hp', hheight r r' p t hr hp⟩

theorem exists_place_of_links (hl : Pair.Links ⟨m, m', ρ, height⟩ t i c) :
    ∃ r r' p, (r, r') ∈ roots ∧ m.memory.tableAt r p = some t ∧
      m.memory.tableAt r (i :: p) = some c := by
  obtain ⟨⟨t', ht⟩, hlink⟩ := hl
  obtain ⟨r, r', p, hr, hp, -, hlen⟩ := h.exists_place hheight ht
  refine ⟨r, r', p, hr, hp, Memory.tableAt_cons_eq_some_iff.2 ⟨t, hp, ?_⟩⟩
  rwa [Path.level, ← hlen]

theorem named (hp : FrameSource.InPace ρ m.frames m'.frames)
    (hs : FrameSource.Honest used m.frames) (hs' : FrameSource.Honest used' m'.frames) :
    Pair.Named used used' roots ⟨m, m', ρ, height⟩ where
  honest := hs
  honest' := hs'
  inPace := hp
  root_iff r r' := by
    constructor
    · exact fun hr => ⟨h.root r r' hr, hheight r r' [] r hr rfl⟩
    · rintro ⟨hname, hthree⟩
      obtain ⟨s, s', p, hs, hp, hp', hlen⟩ := h.exists_place hheight hname
      have hnil : p.length = 0 := by
        dsimp only at hthree
        omega
      obtain rfl := List.length_eq_zero_iff.1 hnil
      cases hp
      cases hp'
      exact hs
  rooted r r' hr :=
    ⟨(h.left.wellFormed r ⟨r', hr⟩).rooted, (h.right.wellFormed r' ⟨r, hr⟩).rooted⟩
  height_le t t' ht := by
    obtain ⟨-, -, p, -, -, -, hlen⟩ := h.exists_place hheight ht
    dsimp only
    omega
  held t t' ht hlt := by
    obtain ⟨r, r', p, hr, hp, hp', hlen⟩ := h.exists_place hheight ht
    have hne : p ≠ [] := by
      rintro rfl
      simp [hlen] at hlt
    exact ⟨(h.left.wellFormed r ⟨r', hr⟩).held p t hne hp,
      (h.right.wellFormed r' ⟨r, hr⟩).held p t' hne hp'⟩

theorem matched : Pair.Matched ⟨m, m', ρ, height⟩ where
  oneToOne := h.oneToOne
  agree t t' ht i := by
    obtain ⟨r, r', p, hr, hp, -, hlen⟩ := h.exists_place hheight ht
    have hagree := h.agree r r' p t t' hr hp ht i
    rwa [Path.level, ← hlen] at hagree
  down t i c hl := by
    obtain ⟨r, r', p, hr, hp, hc⟩ := h.exists_place_of_links hheight hl
    have hle := Memory.length_le_of_tableAt hc
    have ht := hheight r r' p t hr hp
    have hc := hheight r r' (i :: p) c hr hc
    rw [List.length_cons] at hle hc
    dsimp only
    omega
  once t u i j c hl hl' := by
    obtain ⟨r, r', p, hr, hp, hc⟩ := h.exists_place_of_links hheight hl
    obtain ⟨s, s', q, hs, hq, hc'⟩ := h.exists_place_of_links hheight hl'
    obtain ⟨rfl, he⟩ := h.left.place_unique ⟨r', hr⟩ ⟨s', hs⟩ hc hc'
    obtain ⟨rfl, rfl⟩ := List.cons.inj he
    exact ⟨Option.some.inj (hp.symm.trans hq), rfl⟩
  linked c c' hc hlt := by
    obtain ⟨r, r', p, hr, hp, -, hlen⟩ := h.exists_place hheight hc
    cases p with
    | nil => simp [hlen] at hlt
    | cons i p =>
      obtain ⟨t, ht, hlink⟩ := Memory.tableAt_cons_eq_some_iff.1 hp
      obtain ⟨t', hname, -⟩ := h.tableAt hr ht
      refine ⟨t, i, ⟨t', hname⟩, ?_⟩
      dsimp only
      rwa [hheight r r' p t hr ht]

end Heights

/-- **The machines of corresponding groves are twins**, if their sources are in pace. -/
theorem exists_twins (h : Corresponds used used' roots ρ m m')
    (hp : FrameSource.InPace ρ m.frames m'.frames) (hs : FrameSource.Honest used m.frames)
    (hs' : FrameSource.Honest used' m'.frames) :
    ∃ height, Pair.Twins used used' roots ⟨m, m', ρ, height⟩ := by
  obtain ⟨height, hheight⟩ := h.left.exists_height
  replace hheight := fun r r' p t hr => hheight r ⟨r', hr⟩ p t
  exact ⟨height, h.named hheight hp hs hs', h.matched hheight⟩

end Corresponds

/-! ## From tables to hierarchies -/

namespace Pair.Twins

variable {x : Pair α β} {s s' : PAddr} (h : x.Twins used used' roots)

include h

/-- **The tables of the left machine have namesakes at the same paths.** -/
theorem tableAt_right (hr : (r, r') ∈ roots) (ht : x.left.memory.tableAt r p = some t) :
    ∃ t', x.names t = some t' ∧ x.right.memory.tableAt r' p = some t' ∧
      x.height t = 3 - p.length := by
  induction p generalizing t with
  | nil =>
    cases ht
    obtain ⟨hname, hheight⟩ := (h.root_iff r r').1 hr
    exact ⟨r', hname, rfl, hheight⟩
  | cons i p ih =>
    obtain ⟨u, hu, hlink⟩ := Memory.tableAt_cons_eq_some_iff.1 ht
    obtain ⟨u', hname, hu', hheight⟩ := ih hu
    rw [Path.level, ← hheight] at hlink
    have hdown := h.down u i t ⟨⟨u', hname⟩, hlink⟩
    cases h.agree u u' hname i with
    | absent left => cases left.symm.trans hlink
    | leaf left => cases left.symm.trans hlink
    | @link c c' left right named =>
      obtain rfl : c = t := Role.link.inj (left.symm.trans hlink)
      rw [hheight] at right
      refine ⟨c', named, Memory.tableAt_cons_eq_some_iff.2 ⟨u', hu', right⟩, ?_⟩
      rw [List.length_cons]
      omega

theorem tableAt_left (hr : (r, r') ∈ roots) (ht : x.right.memory.tableAt r' p = some t') :
    ∃ t, x.names t = some t' ∧ x.left.memory.tableAt r p = some t := by
  induction p generalizing t' with
  | nil =>
    cases ht
    exact ⟨r, ((h.root_iff r r').1 hr).1, rfl⟩
  | cons i p ih =>
    obtain ⟨u', hu', hlink⟩ := Memory.tableAt_cons_eq_some_iff.1 ht
    obtain ⟨u, hname, hu⟩ := ih hu'
    obtain ⟨-, -, -, hheight⟩ := h.tableAt_right hr hu
    rw [Path.level, ← hheight] at hlink
    cases h.agree u u' hname i with
    | absent _ right => cases right.symm.trans hlink
    | leaf left same =>
      have right : (x.right.entry u' i).role (.ofHeight (x.height u)) = .leaf := same ▸ left
      cases right.symm.trans hlink
    | @link c c' left right named =>
      obtain rfl : c' = t' := Role.link.inj (right.symm.trans hlink)
      rw [hheight] at left
      exact ⟨c, named, Memory.tableAt_cons_eq_some_iff.2 ⟨u, hu, left⟩⟩

theorem links_iff (hr : (r, r') ∈ roots) (ht : x.left.memory.tableAt r p = some t) :
    x.Links t i c ↔ (x.left.entry t i).role (Path.level p) = .link c := by
  obtain ⟨t', hname, -, hheight⟩ := h.tableAt_right hr ht
  simp [Links, hname, hheight, Path.level]

/-- **Every table with a name is at the end of a path**, as it is linked from one level higher. -/
theorem exists_place (ht : x.names t = some t') :
    ∃ r r' p, (r, r') ∈ roots ∧ x.left.memory.tableAt r p = some t := by
  have hle := h.height_le t t' ht
  obtain ⟨n, hn⟩ := Nat.exists_eq_add_of_le hle
  induction n generalizing t t' with
  | zero => exact ⟨t, t', [], (h.root_iff t t').2 ⟨ht, hn.symm⟩, rfl⟩
  | succ n ih =>
    obtain ⟨u, i, hl⟩ := h.linked t t' ht (by omega)
    have hdown := h.down u i t hl
    obtain ⟨u', hu⟩ := hl.1
    obtain ⟨r, r', p, hr, htable⟩ := ih hu (by omega) (by omega)
    exact ⟨r, r', i :: p, hr,
      Memory.tableAt_cons_eq_some_iff.2 ⟨u, htable, (h.links_iff hr htable).1 hl⟩⟩

theorem place_unique (hr : (r, r') ∈ roots) (hs : (s, s') ∈ roots)
    (ht : x.left.memory.tableAt r p = some t) (hq : x.left.memory.tableAt s q = some t) :
    r = s ∧ p = q := by
  have hlen : p.length = q.length := by
    obtain ⟨-, -, -, hheight⟩ := h.tableAt_right hr ht
    obtain ⟨-, -, -, hheight'⟩ := h.tableAt_right hs hq
    have hle := Memory.length_le_of_tableAt ht
    have hle' := Memory.length_le_of_tableAt hq
    omega
  induction p generalizing t q with
  | nil =>
    obtain rfl := List.length_eq_zero_iff.1 hlen.symm
    cases ht
    cases hq
    exact ⟨rfl, rfl⟩
  | cons i p ih =>
    cases q with
    | nil => cases hlen
    | cons j q =>
      obtain ⟨u, hu, hlink⟩ := Memory.tableAt_cons_eq_some_iff.1 ht
      obtain ⟨w, hw, hlink'⟩ := Memory.tableAt_cons_eq_some_iff.1 hq
      obtain ⟨rfl, rfl⟩ :=
        h.once u w i j t ((h.links_iff hr hu).2 hlink) ((h.links_iff hs hw).2 hlink')
      obtain ⟨rfl, rfl⟩ := ih hu hw (by simpa using hlen)
      exact ⟨rfl, rfl⟩

theorem place_unique' (hr : (r, r') ∈ roots) (hs : (s, s') ∈ roots)
    (ht : x.right.memory.tableAt r' p = some t') (hq : x.right.memory.tableAt s' q = some t') :
    r' = s' ∧ p = q := by
  obtain ⟨t, hname, htable⟩ := h.tableAt_left hr ht
  obtain ⟨u, hname', htable'⟩ := h.tableAt_left hs hq
  obtain rfl := h.oneToOne t u t' hname hname'
  obtain ⟨rfl, rfl⟩ := h.place_unique hr hs htable htable'
  have hnr := ((h.root_iff r r').1 hr).1
  exact ⟨Option.some.inj (hnr.symm.trans ((h.root_iff r s').1 hs).1), rfl⟩

theorem grove_left : x.left.Grove used {r | ∃ r', (r, r') ∈ roots} where
  wellFormed := by
    rintro r ⟨r', hr⟩
    refine ⟨h.honest, fun p q t hp hq => (h.place_unique hr hr hp hq).2, fun p t hne hp => ?_,
      (h.rooted r r' hr).1⟩
    obtain ⟨t', hname, -, hheight⟩ := h.tableAt_right hr hp
    have hpos := List.length_pos_iff.2 hne
    exact (h.held t t' hname (by omega)).1
  apart := by
    rintro r ⟨r', hr⟩ s ⟨s', hs⟩ hne p q t hp hq
    exact hne (h.place_unique hr hs hp hq).1

theorem grove_right : x.right.Grove used' {r' | ∃ r, (r, r') ∈ roots} where
  wellFormed := by
    rintro r' ⟨r, hr⟩
    refine ⟨h.honest', fun p q t hp hq => (h.place_unique' hr hr hp hq).2, fun p t' hne hp => ?_,
      (h.rooted r r' hr).2⟩
    obtain ⟨t, hname, htable⟩ := h.tableAt_left hr hp
    obtain ⟨-, -, -, hheight⟩ := h.tableAt_right hr htable
    have hpos := List.length_pos_iff.2 hne
    exact (h.held t t' hname (by omega)).2
  apart := by
    rintro r' ⟨r, hr⟩ s' ⟨s, hs⟩ hne p q t hp hq
    exact hne (h.place_unique' hr hs hp hq).1

/-- **The hierarchies of twins correspond.** -/
theorem corresponds : Corresponds used used' roots x.names x.left x.right where
  left := h.grove_left
  right := h.grove_right
  oneToOne := h.oneToOne
  tables t := by
    constructor
    · rintro ⟨t', ht⟩
      exact h.exists_place ht
    · rintro ⟨r, r', p, hr, hp⟩
      exact (h.tableAt_right hr hp).imp fun t' ht => ht.1
  tables' t' := by
    constructor
    · rintro ⟨t, ht⟩
      obtain ⟨r, r', p, hr, htable⟩ := h.exists_place ht
      obtain ⟨u', hu, htable', -⟩ := h.tableAt_right hr htable
      obtain rfl : t' = u' := Option.some.inj (ht.symm.trans hu)
      exact ⟨r, r', p, hr, htable'⟩
    · rintro ⟨r, r', p, hr, hp⟩
      exact (h.tableAt_left hr hp).imp fun t ht => ht.1
  root r r' hr := ((h.root_iff r r').1 hr).1
  agree := by
    intro r r' p t t' hr hp ht i
    obtain ⟨-, -, -, hheight⟩ := h.tableAt_right hr hp
    rw [Path.level, ← hheight]
    exact h.agree t t' ht i

end Pair.Twins

end VirtualMemory
