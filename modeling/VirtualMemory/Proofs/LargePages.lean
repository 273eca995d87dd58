import VirtualMemory.Proofs.Prediction
import VirtualMemory.Proofs.Validation

/-!
# Large pages and small ones

A region of 2 MiB is mapped by one large leaf, or page by page by the 512 leaves of a table. The two
ways differ in their encoding and in the tables that they need, but not in what any address maps to,
and unmapping the 512 pages takes either of them back.

* `Call.Succeed`: calls that go through one after the other; `Call.smallPages`: those that map a run
  page by page;
* `WellFormed.exists_succeed`: if the first page of the region goes through, the others do;
* `Translation.target?_ofLeaf_large`: the two encodings translate alike, and
  **`Owns.target?_walk_large`**: so do the two hierarchies;
* `Widths.validPages_of_large`: the 512 pages lie in one half of the space;
* **`WellFormed.large_page_like_small`**: the two ways translate alike and are undone alike.
-/

namespace VirtualMemory

/-! ## Calls that succeed -/

namespace Call

variable {α : Type} [FrameSource α]

/-- **The calls all succeed**, one after the other, and take the machine to `m'`. -/
def Succeed (w : Widths) (root : PAddr) : List Call → Machine α → Machine α → Prop
  | [], m, m' => m' = m
  | c :: calls, m, m' => ∃ m₁, c.run w root m = (.ok (), m₁) ∧ Succeed w root calls m₁ m'

/-- **The calls that map `n` pages of 4 KiB** of a run, from the number `i` on. -/
def smallPages (p : PAddr) (v : VAddr) (a : Attributes) (i n : Nat) : List Call :=
  (List.range' i n).map fun j => mapPage (p.addPages j) (v.addPages j) a

end Call

namespace Machine

variable {α : Type} [FrameSource α] {used others : Set PAddr} {root p t : PAddr} {v : VAddr}
  {w : Widths} {s : Span} {a : Attributes} {i n : Nat} {m m' : Machine α}

theorem mapPrefix_of_succeed (h : Call.Succeed w root (Call.smallPages s.phys s.virt a i n) m m') :
    m.mapPrefix w root s a n i = (i + n, none, m') := by
  induction n generalizing i m with
  | zero =>
    obtain rfl : m' = m := h
    rfl
  | succ n ih =>
    obtain ⟨m₁, hrun, hrest⟩ := h
    have hpage : m.mapPage w root (s.phys.addPages i) (s.virt.addPages i) a = (.ok (), m₁) := hrun
    rw [mapPrefix, hpage]
    simp only [ih hrest]
    rw [Nat.add_right_comm, Nat.add_assoc]

theorem exists_mapPage_eq_ok (hp : w.admitsFrame p = true) (hv : w.admitsPage v = true)
    (ht : m.memory.tableAt root (v.trail 3) = some t) (a : Attributes) :
    ∃ m', m.mapPage w root p v a = (.ok (), m') := by
  have hpath : m.makePath v a.encode.asLeaf.asLink .pt (3 - Level.pt.height) root [] = _ :=
    makePath_eq_ok ht
  simp only [mapPage, hp, hv, Bool.not_true, Bool.or_self, Bool.false_eq_true, if_false, writeLeaf,
    hpath]
  split
  · rename_i c hc
    exact absurd hc (Entry.role_pt_ne_link _ c)
  · exact ⟨_, rfl⟩
  · exact ⟨_, rfl⟩

theorem Owns.exists_succeed (h : Owns used others root m)
    (had : ∀ j < i + n, w.admitsFrame (p.addPages j) = true ∧ w.admitsPage (v.addPages j) = true)
    (ht : ∀ j < i + n, ∃ t, m.memory.tableAt root ((v.addPages j).trail 3) = some t)
    (a : Attributes) : ∃ m', Call.Succeed w root (Call.smallPages p v a i n) m m' := by
  induction n generalizing i m with
  | zero => exact ⟨m, rfl⟩
  | succ n ih =>
    obtain ⟨t, hti⟩ := ht i (by omega)
    obtain ⟨m₁, hrun⟩ := exists_mapPage_eq_ok (had i (by omega)).1 (had i (by omega)).2 hti a
    obtain ⟨ho, hx, -⟩ := h.mapPage_ok hrun
    obtain ⟨m', hrest⟩ := ih (i := i + 1) ho.owns (fun j hj => had j (by omega))
      (fun j hj => (ht j (by omega)).imp fun t => hx _ t)
    exact ⟨m', m₁, hrun, hrest⟩

/-- **If the first page of a large region goes through**, the others do: they share its table. -/
theorem WellFormed.exists_succeed (h : WellFormed used root m)
    (hv : v.isAligned PageSize.mib2.bytes = true) (hpages : w.admitsPages v 512 = true)
    (hframes : w.admitsFrames p 512 = true) (hfirst : (m.mapPage w root p v a).1 = .ok ()) :
    ∃ m', Call.Succeed w root (Call.smallPages p v a 0 512) m m' := by
  have had : ∀ j < 1 + 511,
      w.admitsFrame (p.addPages j) = true ∧ w.admitsPage (v.addPages j) = true := fun j hj =>
    ⟨(Widths.admitsFrames_iff_valid.1 hframes).admitsFrame_addPages hj,
      Widths.admitsPage_of_admitsPages hpages hj⟩
  have hrun : m.mapPage w root p v a = (.ok (), _) := Prod.fst_eq_iff.1 hfirst
  have ho := (h.owns.mapPage_ok hrun).1
  obtain ⟨t, ht, -⟩ := Memory.exists_role_of_leaf (l := .pt) (h.owns.leaf_mapPage hrun)
  obtain ⟨m', hrest⟩ := ho.owns.exists_succeed had (fun j hj => ⟨t, by
    rw [Address.addPages, Address.trail_add_of_large hv (by omega)]
    exact ht⟩) a
  refine ⟨m', _, ?_, hrest⟩
  rw [Call.run, Address.addPages_zero, Address.addPages_zero]
  exact hrun

end Machine

/-! ## Two encodings of one translation -/

namespace Translation

variable {p : PAddr}

/-- **A large leaf translates as the small ones do**: the index of the small page goes over. -/
theorem target?_ofLeaf_large (hp : p.isAligned PageSize.mib2.bytes = true) (a : Attributes)
    (x : VAddr) : (ofLeaf .pd (.make p a.encode.asLeaf.enlarged) x).target? =
      (ofLeaf .pt (.make (p.addPages (Level.pt.index x)) a.encode.asLeaf) x).target? := by
  obtain ⟨hlarge, hlarge'⟩ := a.decode_large hp
  obtain ⟨hsmall, hsmall'⟩ := a.decode_leaf (p.addPages (Level.pt.index x))
  have hsum : (Entry.make p a.encode.asLeaf.enlarged).targetOfLarge .mib2 +
        x.remainder PageSize.mib2.bytes =
      (Entry.make (p.addPages (Level.pt.index x)) a.encode.asLeaf).target + x.pageOffset := by
    have hindex := (Level.pt.index x).isLt
    have hframe : (p.addPages (Level.pt.index x)).bits.toNat = _ :=
      Address.toNat_add_of_large hp (show (Level.pt.index x).val * 4096 < 2 ^ 21 by omega)
    rw [Entry.targetOfLarge_make hp hlarge']
    ext1
    apply BitVec.eq_of_toNat_eq
    rw [Address.bits_add, Address.bits_add, BitVec.toNat_add, BitVec.toNat_add,
      Entry.bits_target_make hlarge', Entry.bits_target_make hsmall', Entry.toNat_and_addressMask,
      Entry.toNat_and_addressMask, hframe, Address.pageOffset, Address.remainder, Address.remainder,
      BitVec.toNat_umod, BitVec.toNat_umod, Level.index, Address.index_val,
      Nat.shiftRight_eq_div_pow]
    rw [Address.isAligned_large_iff] at hp
    change (_ + x.bits.toNat % 2 ^ 21) % _ = (_ + x.bits.toNat % 2 ^ 12) % _
    change _ = ((p.bits.toNat + x.bits.toNat / 2 ^ 12 % 512 * 4096) % _ / _ * _ + _) % _
    omega
  change some (_, _) = some (_, _)
  rw [hsum, hlarge, hsmall]

end Translation

namespace Machine

variable {α : Type} [FrameSource α] {used others : Set PAddr} {root p : PAddr} {v : VAddr}
  {w : Widths} {a : Attributes} {m m₁ m₂ : Machine α}

theorem Owns.target?_walk_large (h : Owns used others root m)
    (hv : v.isAligned PageSize.mib2.bytes = true) (hp : p.isAligned PageSize.mib2.bytes = true)
    (hlarge : m.mapLarge w root p v a = (.ok (), m₁))
    (hsmall : Call.Succeed w root (Call.smallPages p v a 0 512) m m₂) (x : VAddr) :
    (m₁.memory.walk root x).target? = (m₂.memory.walk root x).target? := by
  let s : Span := ⟨v, p, 0⟩
  obtain ⟨-, -, hleaf₁⟩ := h.mapLarge_ok hlarge
  obtain ⟨-, -, -, -, -, hleaf₂, -⟩ := h.mapPrefix (mapPrefix_of_succeed (s := s) hsmall)
  have hpath : ∀ j < 512, ∃ i : Index, i.val = j ∧ s.path j = i :: v.trail 3 := fun j hj =>
    ⟨⟨j, hj⟩, rfl, Address.trail_add_page_of_large hv ⟨j, hj⟩⟩
  -- in the region, walks end at the large leaf, or one level further down at a small one
  by_cases hx : x.trail 3 = v.trail 3
  · have hhere : x.trail 4 = s.path (Level.pt.index x) := by
      refine Eq.trans ?_ (Address.trail_add_page_of_large hv (Level.pt.index x)).symm
      rw [← hx]
      rfl
    have he₁ : m₁.memory.leaf root (x.trail 3) = some (.make p a.encode.asLeaf.enlarged) := by
      rw [hleaf₁, hx, Function.update_self]
    have he₂ : m₂.memory.leaf root (x.trail 4) = some (s.leaf a (Level.pt.index x)) := by
      rw [hleaf₂, hhere]
      refine s.overlay_path a (Nat.zero_le _) (Level.pt.index x).isLt fun k hk hk' he => ?_
      obtain ⟨i, rfl, hi⟩ := hpath k (by omega)
      obtain ⟨j, hj, hj'⟩ := hpath _ (Level.pt.index x).isLt
      rw [hi, hj'] at he
      rw [← hj, (List.cons.inj he).1] at hk
      exact Nat.lt_irrefl _ hk
    rw [Memory.walk_eq_ofLeaf (k := 2) (by decide) he₁,
      Memory.walk_eq_ofLeaf (k := 3) (by decide) he₂]
    exact Translation.target?_ofLeaf_large hp a x
  · refine Memory.target?_walk_congr fun k hk => ?_
    have hoff : x.trail (k + 1) ≠ v.trail 3 := by
      intro he
      obtain rfl : k = 2 := by
        by_contra hne
        exact Address.trail_ne_trail (by omega) he
      exact hx he
    have hoff' : ∀ j, 0 ≤ j → j < 0 + 512 → x.trail (k + 1) ≠ s.path j := by
      intro j _ hj he
      obtain ⟨i, -, hi⟩ := hpath j (by omega)
      obtain rfl : k = 3 := by
        by_contra hne
        exact Address.trail_ne_trail (by omega) he
      rw [hi] at he
      exact hx (List.cons.inj he).2
    rw [hleaf₁, hleaf₂, Function.update_of_ne hoff, s.overlay_of_ne a hoff']

end Machine

/-! ## Taking a region back -/

theorem Widths.validPages_of_large {w : Widths} {v : VAddr}
    (hv : v.isAligned PageSize.mib2.bytes = true)
    (h : ∀ j < 512, w.admitsPage (v.addPages j) = true) : w.ValidPages v 512 := by
  have hpage : ∀ j < 512, w.PageAt (v.bits.toNat + j * 4096) := by
    intro j hj
    have hnum : (v.addPages j).bits.toNat = _ := Address.toNat_add_of_large hv (by omega)
    rw [← hnum]
    exact Widths.admitsPage_iff.1 (h j hj)
  refine fun i hi => ⟨hpage i hi, ?_⟩
  have hlast := (hpage 511 (by decide)).2
  rw [Address.isAligned_large_iff] at hv
  unfold Widths.SameHalf
  -- a half is made of large pages, or is smaller than one
  rcases Nat.lt_or_ge (w.virt - 1) 21 with hw | hw
  · have hhalf : 2 ^ (w.virt - 1) ≤ 2 ^ 20 := Nat.pow_le_pow_right (by decide) (by omega)
    omega
  · obtain ⟨c, hc⟩ := Nat.pow_dvd_pow 2 hw
    rw [hc]
    omega

theorem Memory.target?_walk_of_missing {mem : Memory} {root t : PAddr} {v : VAddr} {o : Nat}
    (hv : v.isAligned PageSize.mib2.bytes = true) (hw : mem.walk root v = .missing .pd t)
    (ho : o < 2 ^ 21) : (mem.walk root (v + BitVec.ofNat 64 o)).target? = none := by
  rw [walk_eq_missing_iff] at hw
  have htrail := Address.trail_add_of_large hv ho
  have hstop : mem.walk root (v + BitVec.ofNat 64 o) = .missing .pd t :=
    walk_eq_missing_iff.2 ⟨Address.trail_eq_of_le htrail (show 2 ≤ 3 by decide) ▸ hw.1,
      htrail ▸ hw.2⟩
  rw [hstop]
  rfl

namespace Machine

variable {α : Type} [FrameSource α] {used : Set PAddr} {root p : PAddr} {v : VAddr}
  {w : Widths} {a : Attributes} {m m₁ m₂ : Machine α}

/-- **A large page is like its small ones**: every address maps alike, and unmapping the 512 pages
brings back the hierarchy from before. -/
theorem WellFormed.large_page_like_small (h : WellFormed used root m) (hs : Stocked root m)
    (hv : v.isAligned PageSize.mib2.bytes = true) (hp : p.isAligned PageSize.mib2.bytes = true)
    (hn : ∀ o < 2 ^ 21, (m.memory.walk root (v + BitVec.ofNat 64 o)).target? = none)
    (hlarge : m.mapLarge w root p v a = (.ok (), m₁))
    (hsmall : Call.Succeed w root (Call.smallPages p v a 0 512) m m₂) :
    (∀ x, (m₁.memory.walk root x).target? = (m₂.memory.walk root x).target?) ∧
      ∀ m', m' = m₁ ∨ m' = m₂ → (m'.unmapPages w root v 512).1 = .ok () ∧
        SameHierarchy root m (m'.unmapPages w root v 512).2 := by
  let s : Span := ⟨v, p, 0⟩
  have hprefix : m.mapPrefix w root s a 512 0 = _ := mapPrefix_of_succeed hsmall
  obtain ⟨-, -, -, -, -, -, had⟩ := h.owns.mapPrefix hprefix
  have hadmits : w.admitsPages v 512 = true := Widths.admitsPages_iff_valid.2
    (Widths.validPages_of_large hv fun j hj => (had j (Nat.zero_le j) (by omega)).2)
  have hpages : ∀ i < 512, (m.memory.walk root (v.addPages i)).target? = none := fun i hi =>
    hn (i * 4096) (by omega)
  have hb := stocked_iff.1 hs
  refine ⟨h.owns.target?_walk_large hv hp hlarge hsmall, ?_⟩
  rintro m' (rfl | rfl)
  · have hlaid := h.owns.laid_mapLarge hlarge
    rw [unmapPages_eq hadmits]
    refine ⟨rfl, h.owns.sameHierarchy_unwind_of_slot (h.owns.mapLarge_ok hlarge).1.owns hb hpages
      (fun q hq => hlaid.slot_off fun k hk he => hq ⟨0, by decide, k, hk, ?_⟩)
      fun _ _ _ => hlaid.link⟩
    rw [Address.addPages_zero]
    exact he
  · rw [unmapPages_eq hadmits]
    exact ⟨rfl, h.owns.sameHierarchy_unwind_mapPrefix hb hpages hprefix⟩

theorem large_page_like_small_after_page : ∃ m₁ m₂ : Machine FramePool,
    mixed.mapLarge .assumed ⟨0x1000⟩ ⟨0xa00000⟩ ⟨0x600000⟩ Attributes.readOnly = (.ok (), m₁) ∧
    Call.Succeed .assumed ⟨0x1000⟩
      (Call.smallPages ⟨0xa00000⟩ ⟨0x600000⟩ Attributes.readOnly 0 512) mixed m₂ ∧
    (∀ x, (m₁.memory.walk ⟨0x1000⟩ x).target? = (m₂.memory.walk ⟨0x1000⟩ x).target?) ∧
    SameHierarchy ⟨0x1000⟩ mixed (m₁.unmapPages .assumed ⟨0x1000⟩ ⟨0x600000⟩ 512).2 ∧
    SameHierarchy ⟨0x1000⟩ mixed (m₂.unmapPages .assumed ⟨0x1000⟩ ⟨0x600000⟩ 512).2 := by
  obtain ⟨hmixed, hstocked⟩ := stocked_mixed
  have hv : (⟨0x600000⟩ : VAddr).isAligned PageSize.mib2.bytes = true := by decide
  have hmissing : mixed.memory.walk ⟨0x1000⟩ ⟨0x600000⟩ = .missing .pd ⟨0x3000⟩ := by
    decide +kernel
  have hlarge : (mixed.mapLarge .assumed ⟨0x1000⟩ ⟨0xa00000⟩ ⟨0x600000⟩ Attributes.readOnly).1 =
      .ok () := by decide +kernel
  have hfirst : (mixed.mapPage .assumed ⟨0x1000⟩ ⟨0xa00000⟩ ⟨0x600000⟩ Attributes.readOnly).1 =
      .ok () := by decide +kernel
  obtain ⟨m₂, hsmall⟩ := hmixed.exists_succeed hv (by decide) (by decide) hfirst
  have hlarge := Prod.fst_eq_iff.1 hlarge
  obtain ⟨hwalk, hback⟩ := hmixed.large_page_like_small hstocked hv (by decide)
    (fun o ho => Memory.target?_walk_of_missing hv hmissing ho) hlarge hsmall
  exact ⟨_, m₂, hlarge, hsmall, hwalk, (hback _ (.inl rfl)).2, (hback _ (.inr rfl)).2⟩

end Machine

end VirtualMemory
