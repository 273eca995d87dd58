import VirtualMemory.Proofs.Rights

/-!
# Rights and requests

A leaf has the rights that the call asked for which wrote it, and the links above it allow no less
than a leaf may. So whatever has been called before, an address maps with the rights of the latest
request that went through for its page, and the entries on the way allow nothing beyond it.

* `Call.Grants`: the call goes through, and asks for rights for the page of an address;
* `Call.InForce`: the request of an earlier call that no later one has replaced or undone;
* **`Owns.leaf_call_cases`**: a leaf is that of a request just granted, or it was there before;
* **`Owns.exists_inForce`**: each leaf has the rights of the request in force for it;
* **`Call.withinRequests`**: a run from an empty root gives no rights beyond the requests.
-/

namespace VirtualMemory

namespace Call

/-- **The call asks for the attributes `a` for the page of `x`**, a page of whichever size. -/
def Requests (x : VAddr) (a : Attributes) : Call → Prop
  | mapPage _ v b => v.Alias .pt x ∧ b = a
  | mapLarge _ v b => v.Alias .pd x ∧ b = a
  | mapSpan s b => (∃ i < s.pages, (s.virt.addPages i).Alias .pt x) ∧ b = a
  | unmapPage _ | unmapPages .. => False

variable {α : Type} [FrameSource α]

/-- **The call goes through** from the machine `m`, and asks for `a` for the page of `x`. -/
def Grants (w : Widths) (root : PAddr) (m : Machine α) (x : VAddr) (a : Attributes) (c : Call) :
    Prop :=
  (c.run w root m).1 = .ok () ∧ c.Requests x a

/-- **A request in force** for the page of `x` after some calls from `m`: one of the calls was
granted it, and each later one was granted none for the page and left what `x` maps to as it was. -/
def InForce (w : Widths) (root : PAddr) (m : Machine α) (x : VAddr) (calls : List Call)
    (a : Attributes) : Prop :=
  ∃ before c after, calls = before ++ c :: after ∧ c.Grants w root (runAll w root before m) x a ∧
    ∀ cs d, cs ++ [d] <+: after →
      (∀ b, ¬ d.Grants w root (runAll w root (before ++ c :: cs) m) x b) ∧
        (runAll w root (before ++ c :: (cs ++ [d])) m).memory.walk root x =
          (runAll w root (before ++ c :: cs) m).memory.walk root x

variable {w : Widths} {root : PAddr} {m : Machine α} {x : VAddr} {calls : List Call} {c : Call}
  {a : Attributes}

theorem maps_of_requests (h : c.Requests x a) : c.maps = true := by
  cases c with
  | mapPage => rfl
  | mapLarge => rfl
  | mapSpan => rfl
  | unmapPage => cases h
  | unmapPages => cases h

theorem InForce.asked (h : c.Grants w root (runAll w root calls m) x a) :
    InForce w root m x (calls ++ [c]) a :=
  ⟨calls, c, [], rfl, h, fun _ _ hcs => absurd hcs.length_le (by simp)⟩

theorem InForce.kept (h : InForce w root m x calls a)
    (hc : ∀ b, ¬ c.Grants w root (runAll w root calls m) x b)
    (hwalk : (runAll w root (calls ++ [c]) m).memory.walk root x =
      (runAll w root calls m).memory.walk root x) : InForce w root m x (calls ++ [c]) a := by
  obtain ⟨before, d, after, rfl, hd, hafter⟩ := h
  rw [List.append_assoc, List.cons_append] at hwalk
  refine ⟨before, d, after ++ [c], by simp, hd, fun cs d' hcs => ?_⟩
  rcases List.prefix_concat_iff.1 hcs with hall | hcs
  · obtain ⟨rfl, hlast⟩ := List.append_inj' hall rfl
    obtain rfl := (List.cons.inj hlast).1
    exact ⟨hc, hwalk⟩
  · exact hafter cs d' hcs

end Call

/-! ## Leaves and requests -/

theorem Memory.leaf_cases_of_update {mem mem' : Memory} {root : PAddr} {v x : VAddr} {n k : Nat}
    {e e' : Entry}
    (h : mem'.leaf root = Function.update (mem.leaf root) (v.trail n) (some e'))
    (he : mem'.leaf root (x.trail k) = some e) :
    (v.trail n = x.trail n ∧ e = e') ∨
      (v.trail n ≠ x.trail n ∧ mem.leaf root (x.trail k) = some e) := by
  by_cases hx : v.trail n = x.trail n
  · have hn : mem'.leaf root (x.trail n) = some e' := by rw [h, hx, Function.update_self]
    obtain rfl := length_eq_of_leaf_trail he hn
    exact .inl ⟨hx, Option.some.inj (he.symm.trans hn)⟩
  · have hk : x.trail k ≠ v.trail n := by
      rcases eq_or_ne k n with rfl | hkn
      · exact Ne.symm hx
      · exact Address.trail_ne_trail hkn
    rw [h, Function.update_of_ne hk] at he
    exact .inr ⟨hx, he⟩

theorem Memory.leaf_cases_of_overlay {mem mem' : Memory} {root : PAddr} {s : Span} {a : Attributes}
    {x : VAddr} {n k : Nat} {e : Entry} (h : mem'.leaf root = s.overlay a n 0 (mem.leaf root))
    (he : mem'.leaf root (x.trail k) = some e) :
    ((∃ i < n, s.path i = x.trail 4) ∧ ∃ j, e = s.leaf a j) ∨
      (¬ (∃ i < n, s.path i = x.trail 4) ∧ mem.leaf root (x.trail k) = some e) := by
  by_cases hx : ∃ i < n, s.path i = x.trail 4
  · obtain ⟨i, hi, hpath⟩ := hx
    obtain ⟨j, hj⟩ := s.overlay_of_page a (f := mem.leaf root)
      (.inr ⟨i, Nat.zero_le i, by rwa [Nat.zero_add], hpath.symm⟩)
    rw [← h] at hj
    obtain rfl := length_eq_of_leaf_trail he hj
    exact .inl ⟨⟨i, hi, hpath⟩, j, Option.some.inj (he.symm.trans hj)⟩
  · refine .inr ⟨hx, ?_⟩
    rwa [h, s.overlay_of_ne a fun j _ hj hk => ?_] at he
    obtain rfl : k = 4 := by
      by_contra hk4
      exact Address.trail_ne_trail hk4 hk
    exact hx ⟨j, by rwa [Nat.zero_add] at hj, hk.symm⟩

namespace Machine

variable {α : Type} [FrameSource α] {used others : Set PAddr} {root : PAddr} {w : Widths}
  {x : VAddr} {c : Call} {k : Nat} {e : Entry} {m : Machine α}

/-- **A leaf after a call** has the rights of the last request granted, or was there before. -/
theorem Owns.leaf_call_cases (h : Owns used others root m)
    (he : (c.run w root m).2.memory.leaf root (x.trail k) = some e) :
    (∃ a, c.Grants w root m x a ∧ e.rights = .ofAttributes a) ∨
      (∀ a, ¬ c.Grants w root m x a) ∧ m.memory.leaf root (x.trail k) = some e := by
  by_cases hok : c.maps = true → (c.run w root m).1 ≠ .ok ()
  · exact .inr ⟨fun a ha => hok (Call.maps_of_requests ha.2) ha.1,
      leafIn_of_le (h.slot_call_of_some w hok) he⟩
  push Not at hok
  have hrun := Prod.fst_eq_iff.1 hok.2
  cases c with
  | mapPage p v a =>
    have hpage : v.Alias .pt x ↔ v.trail 4 = x.trail 4 := Address.alias_iff
    rcases Memory.leaf_cases_of_update (h.mapPage_ok hrun).2.2 he with ⟨hx, rfl⟩ | ⟨hx, he⟩
    · exact .inl ⟨a, ⟨hok.2, hpage.2 hx, rfl⟩, (Entry.rights_make _ _).trans a.ofFlags_leaf.1⟩
    · exact .inr ⟨fun b hb => hx (hpage.1 hb.2.1), he⟩
  | mapLarge p v a =>
    have hpage : v.Alias .pd x ↔ v.trail 3 = x.trail 3 := Address.alias_iff
    rcases Memory.leaf_cases_of_update (h.mapLarge_ok hrun).2.2 he with ⟨hx, rfl⟩ | ⟨hx, he⟩
    · exact .inl ⟨a, ⟨hok.2, hpage.2 hx, rfl⟩, (Entry.rights_make _ _).trans a.ofFlags_leaf.2⟩
    · exact .inr ⟨fun b hb => hx (hpage.1 hb.2.1), he⟩
  | mapSpan s a =>
    obtain ⟨-, n, hp⟩ := mapSpan_eq_ok hrun
    obtain ⟨-, -, -, -, hn, hleaf, -⟩ := h.mapPrefix hp
    obtain rfl : n = s.pages := by rw [hn rfl, Nat.zero_add]
    have hpage : ∀ i, (s.virt.addPages i).Alias .pt x ↔ s.path i = x.trail 4 := fun i =>
      Address.alias_iff
    rcases Memory.leaf_cases_of_overlay hleaf he with ⟨⟨i, hi, hx⟩, j, rfl⟩ | ⟨hx, he⟩
    · exact .inl ⟨a, ⟨hok.2, ⟨i, hi, (hpage i).2 hx⟩, rfl⟩,
        (Entry.rights_make _ _).trans a.ofFlags_leaf.1⟩
    · refine .inr ⟨fun b hb => hx ?_, he⟩
      obtain ⟨i, hi, halias⟩ := hb.2.1
      exact ⟨i, hi, (hpage i).1 halias⟩
  | unmapPage => cases hok.1
  | unmapPages => cases hok.1

/-- **After a run from an empty root, each leaf has the rights of the request in force.** -/
theorem Owns.exists_inForce (h : Owns used others root m) (hr : ∀ p, m.memory.slot root p = none)
    (calls : List Call) (hk : k ≤ 3)
    (he : (Call.runAll w root calls m).memory.leaf root (x.trail (k + 1)) = some e) :
    ∃ a, Call.InForce w root m x calls a ∧ e.rights = .ofAttributes a := by
  induction calls using List.reverseRecOn with
  | nil =>
    have hs := slot_of_leafIn he
    cases (hr _).symm.trans hs
  | append_singleton calls c ih =>
    have hrun := Call.runAll_concat w root calls c m
    rw [hrun] at he
    rcases (h.runAll w calls).owns.leaf_call_cases he with ⟨a, ha, hrights⟩ | ⟨hnone, he'⟩
    · exact ⟨a, .asked ha, hrights⟩
    · obtain ⟨a, ha, hrights⟩ := ih he'
      refine ⟨a, ha.kept hnone ?_, hrights⟩
      rw [hrun, Memory.walk_eq_ofLeaf hk he, Memory.walk_eq_ofLeaf hk he']

theorem Owns.marked_runAll (h : Owns used others root m) (hs : Marked (m.memory.slot root))
    (w : Widths) (calls : List Call) :
    Marked ((Call.runAll w root calls m).memory.slot root) := by
  induction calls generalizing m with
  | nil => exact hs
  | cons c calls ih => exact ih (h.call w c).1.owns (h.marked_call hs w c)

end Machine

/-! ## Runs -/

namespace Call

open Machine (WellFormed Owns unmapped owns_unmapped vacant_unmapped)

variable {α : Type} [FrameSource α] {used : Set PAddr} {root : PAddr} {m : Machine α}

/-- **No rights beyond the requests**, in the machine `m'` after some calls from `m`: a leaf has the
rights of the request in force, and the entries on the way to it together allow no more. -/
structure WithinRequests (w : Widths) (root : PAddr) (m : Machine α) (calls : List Call)
    (m' : Machine α) : Prop where
  mode : ∀ q t i, m'.memory.tableAt root q = some t → (m'.entry t i).isPresent = true →
    (m'.entry t i).isGlobal = !(m'.entry t i).rights.user
  link : ∀ q t i child, m'.memory.tableAt root q = some t →
    (m'.entry t i).role (Path.level q) = .link child →
      (m'.entry t i).rights.write = true ∧ (m'.entry t i).rights.execute = true ∧
        (m'.entry t i).isLarge = false
  leaf : ∀ x p a l, m'.memory.walk root x = .mapped p a l →
    ∃ t b, ⟨l, t, m'.entry t (l.index x)⟩ ∈ m'.memory.visits root x ∧ InForce w root m x calls b ∧
      (m'.entry t (l.index x)).rights = .ofAttributes b ∧ Rights.ofAttributes a = .ofAttributes b ∧
        Rights.along (m'.memory.visits root x) ≤ .ofAttributes b

/-- **A run from an empty root gives no rights beyond the requests.** -/
theorem withinRequests (h : WellFormed used root m) (hr : ∀ i, (m.entry root i).isPresent = false)
    (w : Widths) (calls : List Call) :
    WithinRequests w root m calls (runAll w root calls m) := by
  have hvacant := Memory.slot_eq_none_of_vacant hr
  have hmarked := h.owns.marked_runAll (.of_none hvacant) w calls
  have hforce : ∀ {x k e}, k ≤ 3 →
      (runAll w root calls m).memory.leaf root (x.trail (k + 1)) = some e →
        ∃ b, InForce w root m x calls b ∧ e.rights = .ofAttributes b := fun hk he =>
    h.owns.exists_inForce hvacant calls hk he
  generalize runAll w root calls m = m' at hmarked hforce ⊢
  have hslot : ∀ q t i, m'.memory.tableAt root q = some t → (m'.entry t i).isPresent = true →
      m'.memory.slot root (i :: q) = some (m'.entry t i) := fun q t i ht hp =>
    (Memory.slot_cons ht).trans (Entry.inUse?_of_isPresent hp)
  refine ⟨fun q t i ht hp => hmarked.mode _ _ (hslot q t i ht hp), fun q t i child ht hlink => ?_,
    fun x p a l hwalk => ?_⟩
  · have hchild := Memory.tableAt_cons_eq_some_iff.2 ⟨t, ht, hlink⟩
    rw [Memory.tableAt_eq_tableIn] at hchild
    have hp := Entry.isPresent_of_link? (Entry.link?_eq_some_iff.2 hlink)
    exact hmarked.link _ _ (hslot q t i ht hp) (leafIn_eq_none_of_tableIn hchild)
  · obtain ⟨e, he, hmap⟩ := Memory.walk_eq_mapped_iff.1 hwalk
    rw [← l.succ_depth] at he
    obtain ⟨b, hb, hrights⟩ := hforce (Nat.sub_le 3 _) he
    have hreport := (Entry.rights_of_ofLeaf hmap).trans hrights
    obtain ⟨t, hvisit, rfl⟩ := Memory.exists_visit_of_slot (slot_of_leafIn he)
    have hle := Rights.along_le hvisit
    rw [hrights] at hle
    rw [Memory.visitAt_height] at hvisit hrights
    exact ⟨t, b, hvisit, hb, hrights, hreport, hle⟩

theorem withinRequests_replaced :
    ∃ b, InForce .assumed ⟨0x1000⟩ (unmapped ⟨0x1000⟩ 8) ⟨0x200123⟩
        [.mapPage ⟨0x9000⟩ ⟨0x200000⟩ ∅, .mapPage ⟨0xa000⟩ ⟨0x200000⟩ Attributes.readOnly] b ∧
      Rights.ofAttributes b = ⟨false, false, true⟩ ∧
      Rights.along ((runAll .assumed ⟨0x1000⟩
        [.mapPage ⟨0x9000⟩ ⟨0x200000⟩ ∅, .mapPage ⟨0xa000⟩ ⟨0x200000⟩ Attributes.readOnly]
        (unmapped ⟨0x1000⟩ 8)).memory.visits ⟨0x1000⟩ ⟨0x200123⟩) ≤ ⟨false, false, true⟩ := by
  have h : Owns _ ∅ ⟨0x1000⟩ (unmapped ⟨0x1000⟩ 8) := owns_unmapped rfl (by decide) (by decide)
  have hwalk : (runAll .assumed ⟨0x1000⟩
      [.mapPage ⟨0x9000⟩ ⟨0x200000⟩ ∅, .mapPage ⟨0xa000⟩ ⟨0x200000⟩ Attributes.readOnly]
      (unmapped ⟨0x1000⟩ 8)).memory.walk ⟨0x1000⟩ ⟨0x200123⟩ =
        .mapped ⟨0xa123⟩ Attributes.readOnly .pt := by decide +kernel
  obtain ⟨t, b, -, hforce, -, hreport, hle⟩ :=
    (withinRequests h.wellFormed (vacant_unmapped _ _) .assumed _).leaf _ _ _ _ hwalk
  have hrights : Rights.ofAttributes Attributes.readOnly = ⟨false, false, true⟩ := by decide
  exact ⟨b, hforce, hreport.symm.trans hrights, hrights ▸ hreport ▸ hle⟩

end Call

end VirtualMemory
