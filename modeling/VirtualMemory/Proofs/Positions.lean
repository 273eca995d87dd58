import VirtualMemory.Proofs.Accounting
import Mathlib.Data.Set.Card

/-!
# The tables that a hierarchy needs

After any run from an empty root there is a table at each position on the way to a leaf, and nowhere
else. So how a hierarchy came about does not show: which addresses resolve, and at which level,
settles how many frames are out and where the other walks stop.

* `Memory.ResolvesAt`, `Memory.StopsAt`: the level of a walk that finds a leaf, or none;
* `positions`: the places of tables, as a function of what resolves;
* `Address.exists_trail_eq`: each path is on the way of some walk;
* **`tableAt_iff_mem_positions`**, **`stopsAt_iff`**: tables and stops, where no table is bare;
* **`Balanced.encard_holds`**: as many frames are out as there are positions;
* **`runs_need_the_same_frames`**: two runs that resolve the same addresses.
-/

namespace VirtualMemory

namespace Address

theorem trail_four (v : VAddr) :
    v.trail 4 = [v.index 12, v.index 21, v.index 30, v.index 39] := rfl

theorem exists_trail_eq {p : Path} (hp : p.length ≤ 4) : ∃ v : VAddr, p = v.trail p.length := by
  -- the path is made longer until it selects a page
  have hpage : ∀ a b c d : Index, ∃ v : VAddr, [a, b, c, d] = v.trail 4 := by
    intro a b c d
    refine ⟨⟨BitVec.ofNat 64 ((((d * 512 + c) * 512 + b) * 512 + a) * 4096)⟩, ?_⟩
    have hd := d.isLt
    have hc := c.isLt
    have hb := b.isLt
    have ha := a.isLt
    simp only [trail_four, List.cons.injEq, and_true, Fin.ext_iff, index_val, BitVec.toNat_ofNat,
      Nat.shiftRight_eq_div_pow]
    omega
  obtain ⟨q, hq, hpq⟩ : ∃ q : Path, q.length = 4 ∧ p <:+ q :=
    ⟨List.replicate (4 - p.length) 0 ++ p, by simp; omega, List.suffix_append _ _⟩
  match q, hq with
  | [a, b, c, d], _ =>
    obtain ⟨v, hv⟩ := hpage a b c d
    exact ⟨v, eq_trail_of_suffix (hv ▸ hpq)⟩

end Address

/-! ## Where walks end -/

namespace Memory

variable {mem : Memory} {root t u : PAddr} {v : VAddr} {l : Level} {p : Path} {n d : Nat}

/-- The address `v` resolves, by a leaf at the level `l`. -/
def ResolvesAt (mem : Memory) (root : PAddr) (v : VAddr) (l : Level) : Prop :=
  ∃ p a, mem.walk root v = .mapped p a l

/-- The walk for `v` stops at the level `l`, where no entry is in use. -/
def StopsAt (mem : Memory) (root : PAddr) (v : VAddr) (l : Level) : Prop :=
  ∃ t, mem.walk root v = .missing l t

theorem resolvesAt_iff :
    mem.ResolvesAt root v l ↔ mem.leaf root (v.trail (4 - l.height)) ≠ none := by
  rw [Option.ne_none_iff_exists']
  constructor
  · rintro ⟨p, a, h⟩
    exact (walk_eq_mapped_iff.1 h).imp fun _ he => he.1
  · rintro ⟨e, he⟩
    obtain ⟨p, a, h⟩ : ∃ p a, Translation.ofLeaf l e v = .mapped p a l := by
      cases l <;> exact ⟨_, _, rfl⟩
    exact ⟨p, a, walk_eq_mapped_iff.2 ⟨e, he, h⟩⟩

end Memory

/-! ## Tables on the way to leaves -/

/-- **The places of tables below the root** on the way to the leaves of the addresses that resolve:
`R v l` tells that `v` resolves by a leaf at the level `l`. -/
def positions (R : VAddr → Level → Prop) : Set Path :=
  {p | ∃ v l k, R v l ∧ 0 < k ∧ k ≤ 3 - l.height ∧ p = v.trail k}

namespace Memory

variable {mem mem' : Memory} {root root' : PAddr} {v : VAddr} {l : Level} {p : Path}

/-- **Where no table is bare, tables lie on the way to leaves**, and nowhere else. -/
theorem tableAt_iff_mem_positions (hb : ∀ p, ¬ Bare root (mem.slot root) p) (hp : p ≠ []) :
    (∃ t, mem.tableAt root p = some t) ↔ p ∈ positions (mem.ResolvesAt root) := by
  constructor
  · rintro ⟨t, ht⟩
    obtain ⟨q, hpq, hq⟩ := exists_leaf_of_not_bare hb hp ht
    obtain ⟨e, he⟩ := Option.ne_none_iff_exists'.1 hq
    have hlt : p.length < q.length := by
      refine Nat.lt_of_le_of_ne hpq.length_le fun heq => hq ?_
      rw [← hpq.eq_of_length heq, leaf, leafIn_eq_none_of_tableIn (tableAt_eq_tableIn mem root ▸ ht)]
    have hq4 : q.length ≤ 4 := by
      cases q with
      | nil => exact Nat.zero_le 4
      | cons i q =>
        obtain ⟨u, hu, -⟩ := exists_tableAt_of_slot (slot_of_leafIn he)
        exact Nat.succ_le_succ (length_le_of_tableAt hu)
    obtain ⟨v, hv⟩ := Address.exists_trail_eq hq4
    have hh : (Level.ofHeight (4 - q.length)).height = 4 - q.length :=
      Level.height_ofHeight (by omega)
    refine ⟨v, .ofHeight (4 - q.length), p.length, ?_, List.length_pos_iff.2 hp, by omega,
      Address.eq_trail_of_suffix (hv ▸ hpq)⟩
    rw [resolvesAt_iff, hh, show 4 - (4 - q.length) = q.length by omega, ← hv]
    exact hq
  · rintro ⟨v, l, k, hR, -, hk, rfl⟩
    obtain ⟨e, he⟩ := Option.ne_none_iff_exists'.1 (resolvesAt_iff.1 hR)
    rw [v.trail_height] at he
    obtain ⟨t, ht, -⟩ := exists_tableAt_of_slot (slot_of_leafIn he)
    exact exists_tableAt_of_suffix (v.trail_suffix hk) ht

theorem stopsAt_iff (hb : ∀ p, ¬ Bare root (mem.slot root) p) : mem.StopsAt root v l ↔
    (v.trail (3 - l.height) = [] ∨ v.trail (3 - l.height) ∈ positions (mem.ResolvesAt root)) ∧
      v.trail (4 - l.height) ∉ positions (mem.ResolvesAt root) ∧ ¬ mem.ResolvesAt root v l := by
  have hne : v.trail (4 - l.height) ≠ [] := by
    rw [v.trail_height]
    exact List.cons_ne_nil _ _
  have habove : (∃ t, mem.tableAt root (v.trail (3 - l.height)) = some t) ↔
      v.trail (3 - l.height) = [] ∨
        v.trail (3 - l.height) ∈ positions (mem.ResolvesAt root) := by
    rcases eq_or_ne (v.trail (3 - l.height)) [] with hnil | hnil
    · rw [hnil]
      exact ⟨fun _ => .inl rfl, fun _ => ⟨root, rfl⟩⟩
    · rw [tableAt_iff_mem_positions hb hnil, or_iff_right hnil]
  have hslot : mem.slot root (v.trail (4 - l.height)) = none ↔
      ¬ (∃ t, mem.tableAt root (v.trail (4 - l.height)) = some t) ∧
        ¬ mem.ResolvesAt root v l := by
    rw [resolvesAt_iff, not_not]
    constructor
    · intro hs
      refine ⟨fun ⟨t, ht⟩ => ?_, leafIn_eq_none_of_slot hs⟩
      rw [tableAt_eq_tableIn, v.trail_height, tableIn, ← v.trail_height, hs] at ht
      cases ht
    · rintro ⟨ht, hl⟩
      rw [← l.succ_depth] at ht hl ⊢
      rcases trail_cases (Nat.sub_add_cancel l.height_le) with hs | ⟨e, he⟩ | hc
      · exact hs
      · rw [hl] at he
        cases he
      · exact absurd hc ht
  simp only [StopsAt, walk_eq_missing_iff, exists_and_right, habove, hslot,
    tableAt_iff_mem_positions hb hne]

theorem stopsAt_congr (hb : ∀ p, ¬ Bare root (mem.slot root) p)
    (hb' : ∀ p, ¬ Bare root' (mem'.slot root') p)
    (h : mem'.ResolvesAt root' = mem.ResolvesAt root) :
    mem'.StopsAt root' v l ↔ mem.StopsAt root v l := by
  rw [stopsAt_iff hb, stopsAt_iff hb', h]

end Memory

namespace Machine

variable {α β : Type} [FrameSource α] [FrameSource β] {used used' : Set PAddr}
  {root root' : PAddr} {m : Machine α} {m' : Machine β}

/-- **As many frames are out as there are positions**: each of them holds one table. -/
theorem Balanced.encard_holds (h : Balanced root m) :
    {t | m.Holds t}.encard = (positions (m.memory.ResolvesAt root)).encard := by
  have htable : ∀ p ∈ positions (m.memory.ResolvesAt root), ∃ t,
      p ≠ [] ∧ m.memory.tableAt root p = some t := by
    rintro p hp
    have hne : p ≠ [] := by
      obtain ⟨v, l, k, -, hk, -, rfl⟩ := hp
      exact fun h => absurd (congrArg List.length h) (by simp; omega)
    exact ((Memory.tableAt_iff_mem_positions (fun _ => h.not_bare) hne).2 hp).imp fun t ht =>
      ⟨hne, ht⟩
  have himage : {t | m.Holds t} =
      (fun p => (m.memory.tableAt root p).getD root) '' positions (m.memory.ResolvesAt root) := by
    ext t
    constructor
    · intro ht
      obtain ⟨p, hp, ht⟩ := (h.holds_iff t).1 ht
      exact ⟨p, (Memory.tableAt_iff_mem_positions (fun _ => h.not_bare) hp).1 ⟨t, ht⟩, by simp [ht]⟩
    · rintro ⟨p, hp, rfl⟩
      obtain ⟨t, hne, ht⟩ := htable p hp
      exact (h.holds_iff _).2 ⟨p, hne, by simp [ht]⟩
  rw [himage]
  refine Set.InjOn.encard_image fun p hp q hq hpq => ?_
  obtain ⟨t, -, ht⟩ := htable p hp
  obtain ⟨u, -, hu⟩ := htable q hq
  rw [ht, hu] at hpq
  exact h.tree p q t ht (by rw [hu]; exact congrArg some hpq.symm)

/-- Nothing is mapped, and no frame is out. -/
structure Untouched (used : Set PAddr) (root : PAddr) (m : Machine α) : Prop where
  honest : FrameSource.Honest used m.frames
  rooted : root ∈ used
  vacant : ∀ i, (m.entry root i).isPresent = false
  none_out : ∀ t, ¬ m.Holds t

theorem Untouched.balanced_runAll (h : Untouched used root m) (w : Widths) (calls : List Call) :
    Balanced root (Call.runAll w root calls m) := by
  have ho := (owns_of_vacant h.honest h.rooted h.vacant h.none_out).runAll w calls
  refine ho.owns.balanced fun p hp => ?_
  obtain ⟨hne, ⟨t, ht⟩, -⟩ := ho.bare p hp
  rw [← Memory.tableAt_eq_tableIn, Memory.tableAt_eq_none_of_vacant h.vacant hne] at ht
  cases ht

/-- **How a hierarchy came about does not show**: after two runs that resolve the same addresses,
equally many frames are out and all other walks stop at the same levels. -/
theorem runs_need_the_same_frames (h : Untouched used root m) (h' : Untouched used' root' m')
    (w w' : Widths) (calls calls' : List Call)
    (same : ∀ v l, (Call.runAll w root calls m).memory.ResolvesAt root v l ↔
      (Call.runAll w' root' calls' m').memory.ResolvesAt root' v l) :
    {t | (Call.runAll w root calls m).Holds t}.encard =
        (positions ((Call.runAll w root calls m).memory.ResolvesAt root)).encard ∧
      {t | (Call.runAll w' root' calls' m').Holds t}.encard =
        (positions ((Call.runAll w root calls m).memory.ResolvesAt root)).encard ∧
      ∀ v l, (Call.runAll w root calls m).memory.StopsAt root v l ↔
        (Call.runAll w' root' calls' m').memory.StopsAt root' v l := by
  have hb := h.balanced_runAll w calls
  have hb' := h'.balanced_runAll w' calls'
  have hsame : (Call.runAll w root calls m).memory.ResolvesAt root =
      (Call.runAll w' root' calls' m').memory.ResolvesAt root' :=
    funext₂ fun v l => propext (same v l)
  exact ⟨hb.encard_holds, hsame ▸ hb'.encard_holds, fun v l =>
    Memory.stopsAt_congr (fun _ => hb'.not_bare) (fun _ => hb.not_bare) hsame⟩

theorem untouched_unmapped {base : PAddr} {size : Nat} (ha : base.isAligned 4096 = true)
    (hs : 1 ≤ size) (hf : base.bits.toNat + size * 4096 ≤ 2 ^ 52) :
    Untouched (FramePool.pinnedSet base 1) base (unmapped base size) where
  honest := (owns_unmapped ha hs hf).honest
  rooted := (owns_unmapped ha hs hf).rooted.resolve_left id
  vacant := vacant_unmapped base size
  none_out := by
    rintro t ⟨f, hf, -⟩
    cases hf

theorem Owns.leaf_detour (h : Owns used ∅ root m) (w : Widths) (p p' : PAddr) (v v' : VAddr)
    (a a' : Attributes) (hempty : ∀ q, m.memory.leaf root q = none)
    (hne : v.trail 4 ≠ v'.trail 4) (hok : (m.mapPage w root p v a).1 = .ok ())
    (hok₁ : (m.mapPage w root p' v' a').1 = .ok ())
    (hok₂ : ((m.mapPage w root p' v' a').2.mapPage w root p v a).1 = .ok ()) :
    (Call.runAll w root [.mapPage p' v' a', .mapPage p v a, .unmapPage v'] m).memory.leaf root =
      (Call.runAll w root [.mapPage p v a] m).memory.leaf root := by
  obtain ⟨-, -, hl⟩ := h.mapPage_ok (Prod.fst_eq_iff.1 hok)
  obtain ⟨ho₁, -, hl₁⟩ := h.mapPage_ok (Prod.fst_eq_iff.1 hok₁)
  obtain ⟨ho₂, -, hl₂⟩ := ho₁.owns.mapPage_ok (Prod.fst_eq_iff.1 hok₂)
  have hclear := (ho₂.owns.unmapPage v').2.leafIn_eq_update (k := 4) fun k hk => by
    rw [← Memory.leaf, hl₂, hl₁, Function.update_of_ne (Address.trail_ne_trail hk),
      Function.update_of_ne (Address.trail_ne_trail hk), hempty]
  simp only [Call.runAll_cons, Call.runAll_nil, Call.run]
  have hback : Function.update (m.memory.leaf root) (v'.trail 4) none = m.memory.leaf root :=
    Function.update_eq_self_iff.2 (hempty _).symm
  rw [Memory.leaf, hclear, ← Memory.leaf, hl, hl₂, hl₁, Function.update_comm hne,
    Function.update_idem, hback]

theorem detour_needs_the_same_frames :
    let direct := Call.runAll .assumed ⟨0x1000⟩ [.mapPage ⟨0x5000⟩ ⟨0x1ff000⟩ ∅]
      (unmapped ⟨0x1000⟩ 8)
    let detour := Call.runAll .assumed ⟨0x1000⟩ [.mapPage ⟨0x7000⟩ ⟨0x40000000⟩ ∅,
      .mapPage ⟨0x5000⟩ ⟨0x1ff000⟩ ∅, .unmapPage ⟨0x40000000⟩] (unmapped ⟨0x1000⟩ 8)
    {t | direct.Holds t}.encard = {t | detour.Holds t}.encard ∧
      ∀ v l, direct.memory.StopsAt ⟨0x1000⟩ v l ↔ detour.memory.StopsAt ⟨0x1000⟩ v l := by
  have h : Owns _ ∅ ⟨0x1000⟩ (unmapped ⟨0x1000⟩ 8) := owns_unmapped rfl (by decide) (by decide)
  have hm : Untouched _ ⟨0x1000⟩ (unmapped ⟨0x1000⟩ 8) :=
    untouched_unmapped rfl (by decide) (by decide)
  have hleaf := h.leaf_detour .assumed ⟨0x5000⟩ ⟨0x7000⟩ ⟨0x1ff000⟩ ⟨0x40000000⟩ ∅ ∅
    leaf_unmapped (by decide) (by decide +kernel) (by decide +kernel) (by decide +kernel)
  obtain ⟨hn, hn', hstop⟩ := runs_need_the_same_frames hm hm .assumed .assumed
    [.mapPage ⟨0x5000⟩ ⟨0x1ff000⟩ ∅] [.mapPage ⟨0x7000⟩ ⟨0x40000000⟩ ∅,
      .mapPage ⟨0x5000⟩ ⟨0x1ff000⟩ ∅, .unmapPage ⟨0x40000000⟩] fun v l => by
        rw [Memory.resolvesAt_iff, Memory.resolvesAt_iff, hleaf]
  exact ⟨hn.trans hn'.symm, hstop⟩

end Machine

end VirtualMemory
