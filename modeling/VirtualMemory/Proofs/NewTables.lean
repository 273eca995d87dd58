import VirtualMemory.Proofs.Accounting
import VirtualMemory.Proofs.TakingBack

/-!
# New tables

On the way down to a leaf's table, entries are read as long as no table is missing. From the first
new table on none is read any more, and each is taken to be zero. That is what reading them would
give: the frame of a new table may have held anything, but it was zeroed before it was linked, and it
is none of the tables that are in use.

* `Entry.role_congr`: what an entry means, only entries in use tell apart;
* `Machine.makePathReading`, `Machine.writeLeafReading`: the same calls, with every entry read;
* **`Descent.makePathReading_eq`**: step by step, they find what the others take for granted;
* **`WellFormed.reads_enough`**: so they do the same, and below a new table nothing is in the way.
-/

namespace VirtualMemory

theorem Entry.role_congr {e e' : Entry} (h : e.inUse? = e'.inUse?) (l : Level) :
    e.role l = e'.role l := by
  by_cases hp : e.isPresent
  · rw [inUse?_of_isPresent hp] at h
    rw [(eq_of_inUse? h.symm).1]
  · rw [Bool.not_eq_true] at hp
    rw [inUse?_of_not_isPresent hp, eq_comm, inUse?_eq_none_iff] at h
    rw [(role_eq_absent_iff l e).2 hp, (role_eq_absent_iff l e').2 h]

namespace Machine

variable {α : Type} [FrameSource α]

/-! ## Calls that read every entry -/

/-- Goes down to the leaf's table, and reads every entry on the way. -/
def makePathReading (v : VAddr) (link : EntryFlags) (leaf : Level) (n : Nat) (table : PAddr)
    (made : List NewTable) (m : Machine α) : Except MapError PAddr × List NewTable × Machine α :=
  match n with
  | 0 => (.ok table, made, m)
  | n + 1 =>
    let level := Level.ofHeight (leaf.height + n + 1)
    let i := level.index v
    match (m.entry table i).role level with
    | .leaf => (.error .sizeMismatch, made, m)
    | .link child => makePathReading v link leaf n child made m
    | .absent =>
      match m.allocate with
      | (none, m) => (.error .outOfFrames, made, m)
      | (some child, m) =>
        let m := ((m.zero child).write table i (.make child link)).note (.linked v level child)
        makePathReading v link leaf n child (⟨table, i, child⟩ :: made) m

def writeLeafReading (root p : PAddr) (v : VAddr) (leaf : Level) (flags : EntryFlags)
    (m : Machine α) : Except MapError Unit × Machine α :=
  match m.makePathReading v flags.asLink leaf (3 - leaf.height) root [] with
  | (.error e, made, m) => (.error e, m.takeBack made)
  | (.ok table, made, m) =>
    let i := leaf.index v
    match (m.entry table i).role leaf with
    | .link _ => (.error .sizeMismatch, m.takeBack made)
    | .absent => (.ok (), m.write table i (.make p flags))
    | .leaf => (.ok (), (m.write table i (.make p flags)).flush v)

variable {used others : Set PAddr} {root t p : PAddr} {v : VAddr} {leaf : Level} {f : EntryFlags}
  {d n : Nat} {made made' : List NewTable} {r : Except MapError PAddr} {m₀ m m' : Machine α}

/-! ## The way down -/

/-- **Each entry read is as good as the one taken for it.** -/
theorem Descent.makePathReading_eq (h : Descent used others root v m₀ d t made m)
    (hd : d + (leaf.height + n) = 3) :
    m.makePathReading v f.asLink leaf n t made = m.makePath v f.asLink leaf n t made := by
  -- on the levels still to go; a `Descent` knows that a new table has no entry in use
  induction n generalizing d t made m with
  | zero => rfl
  | succ n ih =>
    have hd' : d + (leaf.height + n + 1) = 3 := by omega
    have he := h.inUse?_eq hd'
    have hread : m.memory.slot root (v.trail (d + 1)) =
        (m.entry t ((Level.ofHeight (leaf.height + n + 1)).index v)).inUse? := by
      rw [v.trail_succ hd', Memory.slot_cons h.here]
      rfl
    have hrole := Entry.role_congr (he.trans hread) (Level.ofHeight (leaf.height + n + 1))
    simp only [Machine.makePathReading, Machine.makePath, ← hrole]
    generalize (if made.isEmpty then m.entry t ((Level.ofHeight (leaf.height + n + 1)).index v)
      else Entry.empty) = e at he ⊢
    cases hr : e.role (.ofHeight (leaf.height + n + 1)) with
    | leaf => rfl
    | link child => exact ih (h.follow hd' he (Entry.link?_eq_some_iff.2 hr)) (by omega)
    | absent =>
      rcases ha : m.allocate with ⟨_ | child, m₁⟩
      · rfl
      · have hs : m.memory.slot root (v.trail (d + 1)) = none := by
          rw [← he, Entry.inUse?_of_not_isPresent ((Entry.role_eq_absent_iff _ _).1 hr)]
        exact ih (h.make hd' (Nat.succ_ne_zero _) hs ha f _) (by omega)

theorem WellFormed.makePath_clear (h : WellFormed used root m)
    (hrun : m.makePath v f.asLink leaf (3 - leaf.height) root [] = (r, made, m')) (hne : made ≠ []) :
    (∀ x, r = .error x → x = .outOfFrames) ∧
      ∀ u, r = .ok u → ∀ j, (m'.entry u j).isPresent = false := by
  have hd : 0 + (leaf.height + (3 - leaf.height)) = 3 := by cases leaf <;> rfl
  obtain ⟨herr, hok⟩ := makePath_old h.honest (fun _ _ => h.table_in_use) Memory.tableAt_nil hd hrun
  constructor
  · intro x hx
    by_contra hframes
    exact hne ((herr x hx).1 hframes).1
  · intro u hu
    exact (hok u hu).resolve_left fun hsame => hne hsame.1

/-! ## The leaf -/

/-- **Reading less is enough**: the call that reads every entry gives the same answer and leaves the
same machine. Once a table was made, nothing of another size is in the way. -/
theorem WellFormed.reads_enough (h : WellFormed used root m) (p : PAddr) (v : VAddr) (leaf : Level)
    (f : EntryFlags) :
    m.writeLeafReading root p v leaf f = m.writeLeaf root p v leaf f ∧
    ∀ r made m', m.makePath v f.asLink leaf (3 - leaf.height) root [] = (r, made, m') → made ≠ [] →
      (m.writeLeaf root p v leaf f).1 ≠ .error .sizeMismatch ∧
      (∀ x, r = .error x → x = .outOfFrames) ∧
      ∀ u, r = .ok u → (m'.entry u (leaf.index v)).isPresent = false ∧
        m.writeLeaf root p v leaf f = (.ok (), m'.write u (leaf.index v) (.make p f)) := by
  have hd : 0 + (leaf.height + (3 - leaf.height)) = 3 := by cases leaf <;> rfl
  constructor
  · rewrite [writeLeafReading, writeLeaf, (Descent.start h.owns).makePathReading_eq hd]
    rfl
  · intro r made m' hrun hne
    obtain ⟨herr, hok⟩ := h.makePath_clear hrun hne
    cases r with
    | error x =>
      obtain rfl := herr x rfl
      have hcall : m.writeLeaf root p v leaf f = (.error .outOfFrames, m'.takeBack made) := by
        simp only [writeLeaf, hrun]
      exact ⟨by rw [hcall]; exact nofun, herr, nofun⟩
    | ok u =>
      have hfree := hok u rfl (leaf.index v)
      have hcall : m.writeLeaf root p v leaf f =
          (.ok (), m'.write u (leaf.index v) (.make p f)) := by
        simp only [writeLeaf, hrun, (Entry.role_eq_absent_iff leaf _).2 hfree]
      refine ⟨by rw [hcall]; exact nofun, nofun, fun w hw => ?_⟩
      obtain rfl : u = w := Except.ok.inj hw
      exact ⟨hfree, hcall⟩

theorem reads_enough_of_stale :
    let m := Call.runAll .assumed ⟨0x1000⟩ [.mapPage ⟨0x5000⟩ ⟨0⟩ ∅] (unmapped ⟨0x1000⟩ 16)
    let v : VAddr := ⟨0x40000000⟩
    let f := (∅ : Attributes).encode.asLeaf
    m.allocate.1 = some ⟨0x5000⟩ ∧
      (m.allocate.2.entry ⟨0x5000⟩ (Level.pd.index v)).role .pd = .leaf ∧
      m.writeLeafReading ⟨0x1000⟩ ⟨0x6000⟩ v .pt f = m.writeLeaf ⟨0x1000⟩ ⟨0x6000⟩ v .pt f ∧
      (m.makePath v f.asLink .pt 3 ⟨0x1000⟩ []).2.1.length = 2 ∧
      (m.writeLeaf ⟨0x1000⟩ ⟨0x6000⟩ v .pt f).1 ≠ .error .sizeMismatch := by
  intro m v f
  have h : WellFormed _ ⟨0x1000⟩ m :=
    ((owns_unmapped rfl (by decide) (by decide)).runAll .assumed
      [.mapPage ⟨0x5000⟩ ⟨0⟩ ∅]).owns.wellFormed
  have hmade : (m.makePath v f.asLink .pt 3 ⟨0x1000⟩ []).2.1.length = 2 := by decide +kernel
  obtain ⟨hsame, hclear⟩ := h.reads_enough ⟨0x6000⟩ v .pt f
  rcases hrun : m.makePath v f.asLink .pt 3 ⟨0x1000⟩ [] with ⟨r, made, m'⟩
  rw [hrun] at hmade
  have hstop := (hclear r made m' hrun (List.ne_nil_of_length_eq_add_one hmade)).1
  exact ⟨by decide +kernel, by decide +kernel, hsame, hmade, hstop⟩

end Machine

end VirtualMemory
