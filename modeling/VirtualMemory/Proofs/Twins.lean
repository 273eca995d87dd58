import VirtualMemory.Mapping.Call
import VirtualMemory.Mapping.Check
import VirtualMemory.Proofs.Ownership
import VirtualMemory.Proofs.Renaming

/-!
# Two machines side by side

Two machines hold the same hierarchies in different frames. The tables of the one have names in the
other. As long as entries of the same place agree and every table is linked once, both machines can
change together: what an entry not in use holds, what a frame holds that is no table, and where a
table lies does not matter.

* `Pair`: two machines, with the names and the heights of the tables of the left one;
* `Pair.Named`: the frames of the tables are in use, `Pair.Matched`: their entries agree, and
  **`Pair.Twins`**: both;
* the three changes that twins can go through: **`Twins.set`**, **`Twins.link`**,
  **`Twins.unlink`**.
-/

namespace VirtualMemory

/-- **Two machines side by side.** The tables of the left one have names in the right one, and so
many levels of tables below them. -/
structure Pair (α β : Type) where
  left : Machine α
  right : Machine β
  names : Renaming
  height : PAddr → Nat

namespace Pair

variable {α β : Type} [FrameSource α] [FrameSource β]

/-- The tables with names lie in frames in use, the pairs in `roots` are the roots among them, and
the two sources are in pace. -/
structure Named (used used' : Set PAddr) (roots : List (PAddr × PAddr)) (x : Pair α β) :
    Prop where
  honest : FrameSource.Honest used x.left.frames
  honest' : FrameSource.Honest used' x.right.frames
  inPace : FrameSource.InPace x.names x.left.frames x.right.frames
  root_iff : ∀ r r', (r, r') ∈ roots ↔ x.names r = some r' ∧ x.height r = 3
  rooted : ∀ r r', (r, r') ∈ roots →
    (x.left.Holds r ∨ r ∈ used) ∧ (x.right.Holds r' ∨ r' ∈ used')
  height_le : ∀ t t', x.names t = some t' → x.height t ≤ 3
  held : ∀ t t', x.names t = some t' → x.height t < 3 → x.left.Holds t ∧ x.right.Holds t'

omit [FrameSource α] [FrameSource β] in
/-- In the left machine, the entry `i` of the table `t` links the table `c`. -/
def Links (x : Pair α β) (t : PAddr) (i : Index) (c : PAddr) : Prop :=
  (∃ t', x.names t = some t') ∧ (x.left.entry t i).role (.ofHeight (x.height t)) = .link c

omit [FrameSource α] [FrameSource β] in
/-- Tables of the same name have entries that agree, and each table below the roots is linked once,
from one level higher. -/
structure Matched (x : Pair α β) : Prop where
  oneToOne : x.names.OneToOne
  agree : ∀ t t', x.names t = some t' → ∀ i, Entry.Agree x.names (.ofHeight (x.height t))
    (x.left.entry t i) (x.right.entry t' i)
  down : ∀ t i c, x.Links t i c → x.height t = x.height c + 1
  once : ∀ t u i j c, x.Links t i c → x.Links u j c → t = u ∧ i = j
  linked : ∀ c c', x.names c = some c' → x.height c < 3 → ∃ t i, x.Links t i c

/-- **The machines of a pair are twins**: the roots in `roots` head trees of the same shape, whose
tables lie in frames in use. -/
structure Twins (used used' : Set PAddr) (roots : List (PAddr × PAddr)) (x : Pair α β) : Prop
    extends Named used used' roots x, Matched x

variable {used used' : Set PAddr} {roots : List (PAddr × PAddr)} {x y : Pair α β}
  {t t' u u' c c' d : PAddr} {i j : Index} {e e' : Entry} {f : EntryFlags} {n : Nat}
  {height : PAddr → Nat}
  {m m₁ : Machine α} {m' m₁' : Machine β}

/-! ## Frames -/

namespace Named

theorem in_use (h : x.Named used used' roots) (ht : x.names t = some t') :
    (x.left.Holds t ∨ t ∈ used) ∧ (x.right.Holds t' ∨ t' ∈ used') := by
  rcases Nat.lt_or_eq_of_le (h.height_le t t' ht) with hlt | heq
  · exact (h.held t t' ht hlt).imp .inl .inl
  · exact h.rooted t t' ((h.root_iff t t').2 ⟨ht, heq⟩)

theorem fresh (h : x.Named used used' roots) (ha : x.left.allocate = (some c, m₁))
    (ha' : x.right.allocate = (some c', m₁')) : x.names c = none ∧ ∀ t, x.names t ≠ some c' := by
  obtain ⟨hc, -, -, hh, hs, -⟩ := Machine.allocate_some h.honest ha
  obtain ⟨hc', -, -, hh', hs', -⟩ := Machine.allocate_some h.honest' ha'
  have hu : c ∉ used := ((hh c).2 (.inl rfl)).notMem hs
  have hu' : c' ∉ used' := ((hh' c').2 (.inl rfl)).notMem hs'
  constructor
  · rw [Option.eq_none_iff_forall_ne_some]
    exact fun d hd => (h.in_use hd).1.elim hc hu
  · exact fun t ht => (h.in_use ht).2.elim hc' hu'

theorem congr (h : x.Named used used' roots) (hf : m.frames = x.left.frames)
    (hf' : m'.frames = x.right.frames) :
    Named used used' roots { x with left := m, right := m' } := by
  constructor <;> simp only [Machine.holds_congr hf, Machine.holds_congr hf', hf, hf']
  exacts [h.honest, h.honest', h.inPace, h.root_iff, h.rooted, h.height_le, h.held]

theorem insert (h : x.Named used used' roots) (ha : x.left.allocate = (some c, m₁))
    (ha' : x.right.allocate = (some c', m₁'))
    (hp : FrameSource.InPace (Function.update x.names c (some c')) m₁.frames m₁'.frames)
    (hf : m.frames = m₁.frames) (hf' : m'.frames = m₁'.frames) (hn : n < 3) :
    Named used used' roots
      ⟨m, m', Function.update x.names c (some c'), Function.update x.height c n⟩ := by
  obtain ⟨hc, -⟩ := h.fresh ha ha'
  obtain ⟨-, -, -, hh, hs, -⟩ := Machine.allocate_some h.honest ha
  obtain ⟨-, -, -, hh', hs', -⟩ := Machine.allocate_some h.honest' ha'
  constructor <;> simp only [Machine.holds_congr hf, Machine.holds_congr hf', hh, hh']
  case honest => exact hf ▸ hs
  case honest' => exact hf' ▸ hs'
  case inPace => exact hf ▸ hf' ▸ hp
  case root_iff =>
    intro r r'
    rw [h.root_iff]
    by_cases hr : r = c
    · subst hr
      simp [hc]
      omega
    · simp [hr]
  case rooted => exact fun r r' hr => (h.rooted r r' hr).imp (.imp_left .inr) (.imp_left .inr)
  case height_le =>
    intro t t' ht
    by_cases htc : t = c
    · simp [htc]
      omega
    · simp only [Function.update_of_ne htc] at ht ⊢
      exact h.height_le t t' ht
  case held =>
    intro t t' ht hlt
    by_cases htc : t = c
    · simp_all
    · simp only [Function.update_of_ne htc] at ht hlt
      exact (h.held t t' ht hlt).imp .inr .inr

/-- **A frame given back loses its name.** Its height does not matter any more. -/
theorem erase (h : x.Named used used' roots) (h₁ : x.names.OneToOne) (hc : x.names c = some c')
    (hlt : x.height c < 3) (hf : m.frames = x.left.frames) (hf' : m'.frames = x.right.frames)
    (hheight : ∀ u, u ≠ c → height u = x.height u) :
    Named used used' roots
      ⟨m.release c, m'.release c', Function.update x.names c none, height⟩ := by
  obtain ⟨hcl, hcr⟩ := h.held c c' hc hlt
  rw [← Machine.holds_congr hf] at hcl
  rw [← Machine.holds_congr hf'] at hcr
  obtain ⟨hh, hs, -⟩ := Machine.holds_release (hf ▸ h.honest) hcl
  obtain ⟨hh', hs', -⟩ := Machine.holds_release (hf' ▸ h.honest') hcr
  have hne' : ∀ {t t'}, x.names t = some t' → t ≠ c → t' ≠ c' := by
    rintro t t' ht htc rfl
    exact htc (h₁ t c t' ht hc)
  constructor <;>
    simp only [hh, hh', Machine.holds_congr hf, Machine.holds_congr hf']
  case honest => exact hs
  case honest' => exact hs'
  case inPace => exact Machine.inPace_release (hf ▸ hf' ▸ h.inPace) hcl hcr hc
  case root_iff =>
    intro r r'
    rw [h.root_iff]
    by_cases hr : r = c
    · simp [hr, hlt.ne]
    · simp [hr, hheight r hr]
  case rooted =>
    intro r r' hr
    obtain ⟨hn, hr₃⟩ := (h.root_iff r r').1 hr
    have hrc : r ≠ c := by
      rintro rfl
      omega
    exact (h.rooted r r' hr).imp (.imp_left (⟨·, hrc⟩)) (.imp_left (⟨·, hne' hn hrc⟩))
  case height_le =>
    intro t t' ht
    by_cases htc : t = c
    · simp [htc] at ht
    · simp only [Function.update_of_ne htc, hheight t htc] at ht ⊢
      exact h.height_le t t' ht
  case held =>
    intro t t' ht hlt
    by_cases htc : t = c
    · simp [htc] at ht
    · simp only [Function.update_of_ne htc, hheight t htc] at ht hlt
      exact (h.held t t' ht hlt).imp (⟨·, htc⟩) (⟨·, hne' ht htc⟩)

end Named

/-! ## Entries -/

namespace Matched

omit [FrameSource α] [FrameSource β]

theorem exists_name (h : x.Matched) (hl : x.Links t i c) : ∃ c', x.names c = some c' := by
  obtain ⟨⟨t', ht⟩, hr⟩ := hl
  cases h.agree t t' ht i with
  | absent left => simp [left] at hr
  | leaf left => simp [left] at hr
  | @link d d' left _ named => exact ⟨d', by simp_all⟩

theorem name_eq_iff (h : x.Matched) (ht : x.names t = some t') (hu : x.names u = some u') :
    t' = u' ↔ t = u := by
  constructor
  · rintro rfl
    exact h.oneToOne t u t' ht hu
  · rintro rfl
    exact Option.some.inj (ht.symm.trans hu)

theorem set (h : x.Matched) (ht : x.names t = some t')
    (ha : Entry.Agree x.names (.ofHeight (x.height t)) e e')
    (hold : ∀ c, (x.left.entry t i).role (.ofHeight (x.height t)) ≠ .link c)
    (hnew : ∀ c, e.role (.ofHeight (x.height t)) ≠ .link c)
    (hm : ∀ u j, m.entry u j = if t = u ∧ i = j then e else x.left.entry u j)
    (hm' : ∀ u j, m'.entry u j = if t' = u ∧ i = j then e' else x.right.entry u j) :
    Matched { x with left := m, right := m' } := by
  have hlinks : ∀ u j c, ({ x with left := m, right := m' } : Pair α β).Links u j c ↔
      x.Links u j c := by
    intro u j c
    simp only [Links, hm]
    split
    · rename_i hu
      obtain ⟨rfl, rfl⟩ := hu
      simp [hold, hnew]
    · rfl
  constructor <;> simp only [hlinks]
  case agree =>
    intro u u' hu j
    simp only [hm, hm', h.name_eq_iff ht hu]
    split
    · rename_i he
      obtain ⟨rfl, rfl⟩ := he
      exact ha
    · exact h.agree u u' hu j
  exacts [h.oneToOne, h.down, h.once, h.linked]

/-! ### A table more -/

section Link

variable (h : x.Matched) (ht : x.names t = some t') (hn : x.height t = n + 1)
  (hi : (x.left.entry t i).isPresent = false) (hc : x.names c = none) (ha : c.Nameable)
  (hm : ∀ u j, m.entry u j = if t = u ∧ i = j then .make c f.asLink
    else if c = u then .empty else x.left.entry u j)

include ht hn hi hc ha hm

theorem links_link_iff :
    Links ⟨m, m', Function.update x.names c (some c'), Function.update x.height c n⟩ u j d ↔
      (u = t ∧ j = i ∧ d = c) ∨ x.Links u j d := by
  have htc : t ≠ c := by
    rintro rfl
    simp [hc] at ht
  have hrole : (Entry.make c f.asLink).role (.ofHeight (n + 1)) = .link c :=
    Entry.link?_eq_some_iff.1 (Entry.link?_make_asLink ha f (Level.ofHeight_succ_ne_pt n))
  simp only [Links, hm]
  by_cases huc : u = c
  · subst huc
    simp [hc, htc, htc.symm]
  · simp only [Function.update_of_ne huc, if_neg (Ne.symm huc)]
    by_cases hu : t = u ∧ i = j
    · obtain ⟨rfl, rfl⟩ := hu
      simp [ht, hn, hrole, (Entry.role_eq_absent_iff _ _).2 hi, eq_comm]
    · have hu' : ¬ (u = t ∧ j = i ∧ d = c) := fun he => hu ⟨he.1.symm, he.2.1.symm⟩
      simp [hu, hu']

include h

/-- **A table of a new name is linked** by an entry that was not in use. -/
theorem link (hc' : ∀ t, x.names t ≠ some c') (ha' : c'.Nameable)
    (hm' : ∀ u j, m'.entry u j = if t' = u ∧ i = j then .make c' f.asLink
      else if c' = u then .empty else x.right.entry u j) :
    Matched ⟨m, m', Function.update x.names c (some c'), Function.update x.height c n⟩ := by
  have hne : ∀ {u u'}, x.names u = some u' → u ≠ c ∧ u' ≠ c' := by
    rintro u u' hu
    constructor
    · rintro rfl
      simp [hc] at hu
    · rintro rfl
      exact hc' u hu
  have hnew : ∀ {u j d}, x.Links u j d → u ≠ c ∧ d ≠ c := fun hl =>
    ⟨(hne hl.1.choose_spec).1, (hne (h.exists_name hl).choose_spec).1⟩
  constructor <;> simp only [links_link_iff ht hn hi hc ha hm]
  case oneToOne => exact h.oneToOne.insert hc'
  case agree =>
    intro u u' hu j
    rw [hm, hm']
    by_cases huc : u = c
    · -- the new table: all its entries are zero
      subst huc
      obtain rfl : c' = u' := by simpa using hu
      simp only [hne ht, false_and, if_false, if_true]
      exact .of_not_isPresent rfl rfl
    · rw [Function.update_of_ne huc] at hu ⊢
      simp only [Ne.symm huc, (hne hu).2.symm, if_false, h.name_eq_iff ht hu]
      split
      · rename_i he
        obtain ⟨rfl, rfl⟩ := he
        rw [hn]
        exact .make_asLink ha ha' (Level.ofHeight_succ_ne_pt n) (Function.update_self ..)
      · exact (h.agree u u' hu j).congr fun d hd =>
          Function.update_of_ne (hnew ⟨⟨u', hu⟩, hd⟩).2 ..
  case down =>
    rintro u j d (⟨rfl, rfl, rfl⟩ | hl)
    · simp [hne ht, hn]
    · rw [Function.update_of_ne (hnew hl).1, Function.update_of_ne (hnew hl).2]
      exact h.down u j d hl
  case once =>
    rintro u w j k d (⟨rfl, rfl, rfl⟩ | hl) (⟨rfl, rfl, hd⟩ | hl')
    · exact ⟨rfl, rfl⟩
    · exact absurd rfl (hnew hl').2
    · exact absurd hd (hnew hl).2
    · exact h.once u w j k d hl hl'
  case linked =>
    intro d d' hd hlt
    by_cases hdc : d = c
    · exact ⟨t, i, .inl ⟨rfl, rfl, hdc⟩⟩
    · simp only [Function.update_of_ne hdc] at hd hlt
      exact (h.linked d d' hd hlt).imp fun u => .imp fun j hl => .inr hl

end Link

/-! ### A table less -/

section Unlink

variable (h : x.Matched) (hl : x.Links t i c) (hv : ∀ j, (x.left.entry c j).isPresent = false)
  (he : e.isPresent = false)
  (hm : ∀ u j, m.entry u j = if t = u ∧ i = j then e else x.left.entry u j)
  (hheight : ∀ u, u ≠ c → height u = x.height u)

include hv

theorem not_links_of_vacant : ¬ x.Links c j d := by
  rintro ⟨-, hr⟩
  simp [(Entry.role_eq_absent_iff _ _).2 (hv j)] at hr

include h hl he hm hheight

theorem links_unlink_iff : Links ⟨m, m', Function.update x.names c none, height⟩ u j d ↔
    d ≠ c ∧ x.Links u j d := by
  by_cases huc : u = c
  · subst huc
    simp only [not_links_of_vacant hv, and_false, iff_false]
    simp [Links]
  · simp only [Links, hm, Function.update_of_ne huc, hheight u huc]
    by_cases hu : t = u ∧ i = j
    · obtain ⟨rfl, rfl⟩ := hu
      simp only [and_self, if_true, (Entry.role_eq_absent_iff _ _).2 he, reduceCtorEq, and_false,
        hl.2, Role.link.injEq, false_iff]
      exact fun hd => hd.1 hd.2.2.symm
    · have hd : x.Links u j d → d ≠ c := by
        rintro hl' rfl
        exact hu (h.once t u i j d hl hl')
      simp only [if_neg hu]
      exact ⟨fun hl' => ⟨hd hl', hl'⟩, fun hl' => hl'.2⟩

/-- **A table without an entry in use is unlinked** and loses its name. -/
theorem unlink (ht : x.names t = some t') (he' : e'.isPresent = false)
    (hm' : ∀ u j, m'.entry u j = if t' = u ∧ i = j then e' else x.right.entry u j) :
    Matched ⟨m, m', Function.update x.names c none, height⟩ := by
  constructor <;> simp only [h.links_unlink_iff hl hv he hm hheight]
  case oneToOne => exact h.oneToOne.erase
  case agree =>
    intro u u' hu j
    by_cases huc : u = c
    · simp [huc] at hu
    simp only [Function.update_of_ne huc] at hu
    simp only [hheight u huc, hm, hm', h.name_eq_iff ht hu]
    split
    · exact .of_not_isPresent he he'
    · rename_i hne
      refine (h.agree u u' hu j).congr fun d hd => Function.update_of_ne ?_ ..
      rintro rfl
      exact hne (h.once t u i j d hl ⟨⟨u', hu⟩, hd⟩)
  case down =>
    rintro u j d ⟨hdc, hl'⟩
    have huc : u ≠ c := by
      rintro rfl
      exact not_links_of_vacant hv hl'
    rw [hheight u huc, hheight d hdc]
    exact h.down u j d hl'
  case once => exact fun u w j k d hu hw => h.once u w j k d hu.2 hw.2
  case linked =>
    intro d d' hd hlt
    by_cases hdc : d = c
    · simp [hdc] at hd
    · simp only [Function.update_of_ne hdc, hheight d hdc] at hd hlt
      exact (h.linked d d' hd hlt).imp fun u => .imp fun j hl' => ⟨hdc, hl'⟩

end Unlink

end Matched

/-! ## Twins -/

namespace Twins

theorem congr (h : x.Twins used used' roots) (hm : m.memory = x.left.memory)
    (hf : m.frames = x.left.frames) (hm' : m'.memory = x.right.memory)
    (hf' : m'.frames = x.right.frames) :
    Twins used used' roots { x with left := m, right := m' } := by
  refine ⟨h.toNamed.congr hf hf', ?_⟩
  have hlinks : ∀ t i c, ({ x with left := m, right := m' } : Pair α β).Links t i c ↔
      x.Links t i c := by simp [Links, Machine.entry, hm]
  constructor <;> simp only [hlinks, Machine.entry, hm, hm']
  exacts [h.oneToOne, h.agree, h.down, h.once, h.linked]

theorem set (h : x.Twins used used' roots) (ht : x.names t = some t')
    (ha : Entry.Agree x.names (.ofHeight (x.height t)) e e')
    (hold : ∀ c, (x.left.entry t i).role (.ofHeight (x.height t)) ≠ .link c)
    (hnew : ∀ c, e.role (.ofHeight (x.height t)) ≠ .link c)
    (hm : m.memory = x.left.memory.set t i e) (hf : m.frames = x.left.frames)
    (hm' : m'.memory = x.right.memory.set t' i e') (hf' : m'.frames = x.right.frames) :
    Twins used used' roots { x with left := m, right := m' } where
  toNamed := h.toNamed.congr hf hf'
  toMatched := h.toMatched.set ht ha hold hnew (by simp [Machine.entry, hm, Memory.entry_set])
    (by simp [Machine.entry, hm', Memory.entry_set])

theorem link (h : x.Twins used used' roots) (ht : x.names t = some t') (hn : x.height t = n + 1)
    (hi : (x.left.entry t i).isPresent = false) (ha : x.left.allocate = (some c, m₁))
    (ha' : x.right.allocate = (some c', m₁'))
    (hp : FrameSource.InPace (Function.update x.names c (some c')) m₁.frames m₁'.frames) :
    Twins used used' roots
      ⟨(m₁.zero c).write t i (.make c f.asLink), (m₁'.zero c').write t' i (.make c' f.asLink),
        Function.update x.names c (some c'), Function.update x.height c n⟩ := by
  have hle := h.height_le t t' ht
  obtain ⟨hc, hc'⟩ := h.fresh ha ha'
  obtain ⟨-, hal, hb, -⟩ := Machine.allocate_some h.honest ha
  obtain ⟨-, hal', hb', -⟩ := Machine.allocate_some h.honest' ha'
  exact ⟨h.toNamed.insert ha ha' hp rfl rfl (by omega),
    h.toMatched.link ht hn hi hc ⟨hal, hb⟩ (Machine.entry_of_made h.honest ha) hc' ⟨hal', hb'⟩
      (Machine.entry_of_made h.honest' ha')⟩

/-- **A table without an entry in use is unlinked in both machines** and its frame given back. -/
theorem unlink (h : x.Twins used used' roots) (hl : x.Links t i c)
    (ht : x.names t = some t') (hc : x.names c = some c')
    (hv : ∀ j, (x.left.entry c j).isPresent = false)
    (hm : m.memory = x.left.memory.set t i (x.left.entry t i).disabled)
    (hf : m.frames = x.left.frames)
    (hm' : m'.memory = x.right.memory.set t' i (x.right.entry t' i).disabled)
    (hf' : m'.frames = x.right.frames) (hheight : ∀ u, u ≠ c → height u = x.height u) :
    Twins used used' roots
      ⟨m.release c, m'.release c', Function.update x.names c none, height⟩ := by
  have hdown := h.down t i c hl
  have hle := h.height_le t t' ht
  refine ⟨h.toNamed.erase h.oneToOne hc (by omega) hf hf' hheight,
    h.toMatched.unlink hl hv (Entry.isPresent_disabled (x.left.entry t i)) ?_ hheight ht
      (Entry.isPresent_disabled (x.right.entry t' i)) ?_⟩
  · simp [Machine.entry, hm, Memory.entry_set]
  · simp [Machine.entry, hm', Memory.entry_set]

end Twins

end Pair

end VirtualMemory
