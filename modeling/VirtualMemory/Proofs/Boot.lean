import VirtualMemory.Kernel
import VirtualMemory.Proofs.Accounting
import VirtualMemory.Proofs.Overflow

/-!
# Boot

The kernel takes over a machine whatever its registers hold and its processor reports. It adds flags
to three registers, takes the identity mapping out of the hierarchy that CR3 names, and has the
processor load the root anew once this is done. Nothing else changes.

* `Memory.walk_set_root`: a write to the root's table, seen from the addresses that pass it by;
* `Machine.actions`: the events without the notices (**`actions_boot`**);
* `Machine.TakenOver`: all that boot does;
* **`Machine.boot_takes_over`**: boot does so wherever the tables below CR3 form a tree.
-/

namespace VirtualMemory

/-- A notice for the log. -/
def Event.isNotice : Event → Bool
  | logged _ => true
  | _ => false

/-! ## Registers -/

namespace FlagSet

variable {k : FlagKind 64} {s : FlagSet k} {i j : Nat}

theorem getLsbD_union_bit (hj : j < 64) :
    (s ∪ bit i).bits.getLsbD j = true ↔ s.bits.getLsbD j = true ∨ j = i := by
  rw [bits_union, bits_bit, BitVec.getLsbD_or, BitVec.getLsbD_twoPow, Bool.or_eq_true,
    Bool.and_eq_true, decide_eq_true_eq, decide_eq_true_eq]
  exact or_congr_right ⟨fun h => h.2.symm, fun h => ⟨h ▸ hj, h.symm⟩⟩

theorem getLsbD_union_ite (hj : j < 64) (b : Bool) :
    (s ∪ if b then bit i else ∅).bits.getLsbD j = true ↔
      s.bits.getLsbD j = true ∨ b = true ∧ j = i := by
  cases b with
  | false => simp
  | true => simpa using getLsbD_union_bit hj

end FlagSet

namespace Widths

/-- **The width in a byte of the register for address sizes**, or `assumed` if the processor has no
such register or the number is no possible width. -/
def measured (cpu : Cpuid) (byte assumed : Nat) : Nat :=
  let n := ((cpu 0x80000008 0).eax.extractLsb' (8 * byte) 8).toNat
  if 0x80000008 ≤ (cpu 0x80000000 0).eax.toNat ∧ 1 ≤ n ∧ n ≤ 64 then n else assumed

theorem reported_eq (cpu : Cpuid) :
    (reported cpu).virt = measured cpu 1 48 ∧ (reported cpu).phys = measured cpu 0 36 := by
  have hmax : (cpu 0x80000000 0).eax < 0x80000008 ↔
      ¬ 0x80000008 ≤ (cpu 0x80000000 0).eax.toNat := by
    rw [BitVec.lt_def, Nat.not_le]
    rfl
  have hor : ∀ r a, orAssumed r a = if 1 ≤ r ∧ r ≤ 64 then r else a := by
    intro r a
    unfold orAssumed
    split <;> split <;> first | rfl | omega
  unfold reported measured
  simp only [hmax]
  by_cases h : 0x80000008 ≤ (cpu 0x80000000 0).eax.toNat
  · simp only [h, not_true, if_false, true_and]
    exact ⟨hor _ _, hor _ _⟩
  · simp only [h, not_false_iff, if_true, false_and, if_false]
    exact ⟨rfl, rfl⟩

end Widths

/-! ## The root's table -/

namespace Memory

variable {mem : Memory} {root t : PAddr} {v : VAddr} {p : Path} {i : Index}

theorem entry_set_eq (mem : Memory) (root : PAddr) (i : Index) (e : Entry) :
    ∀ p u j, mem.tableAt root p = some u → ¬ (u = root ∧ j = i) →
      (mem.set root i e).entry u j = mem.entry u j :=
  fun _ _ _ _ hne => mem.entry_set_of_ne e hne

/-- **Addresses that pass by an entry of the root** do not notice a write to it. -/
theorem walk_set_root (h : mem.Tree root) (e : Entry) (hv : Level.pml4.index v ≠ i) :
    (mem.set root i e).walk root v = mem.walk root v := by
  refine walk_congr (fun k _ => ?_) (.inl rfl)
  refine (tableAt_slot_eq_of_not_suffix h tableAt_nil (mem.entry_set_eq root i e) fun hs => ?_).2
  have htrail : [i] = v.trail 1 := Address.eq_trail_of_suffix hs
  exact hv (List.cons.inj htrail).1.symm

theorem walk_clear_root (mem : Memory) (root : PAddr) (v : VAddr) :
    (mem.set root (Level.pml4.index v) .empty).walk root v = .missing .pml4 root := by
  rw [walk_eq_missing_pml4_iff, entry_set_self, Entry.isPresent_empty]

/-- **Clearing an entry of the root** leads to no table that was not there before. -/
theorem tableAt_of_clear_root (h : mem.Tree root)
    (ht : (mem.set root i .empty).tableAt root p = some t) : mem.tableAt root p = some t := by
  by_cases hs : [i] <:+ p
  · obtain ⟨u, hu⟩ := exists_tableAt_of_suffix hs ht
    rw [tableAt_singleton, entry_set_self] at hu
    cases hu
  · rw [← ht]
    exact (tableAt_slot_eq_of_not_suffix h tableAt_nil (mem.entry_set_eq root i .empty) hs).1.symm

end Memory

/-! ## The machine after boot -/

namespace Machine

variable {α : Type} {m : Machine α}

@[simp] theorem registers_note (m : Machine α) (n : Notice) :
    (m.note n).registers = m.registers := by
  unfold note
  split <;> rfl

theorem memory_boot (m : Machine α) :
    m.boot.machine.memory = m.memory.set m.registers.cr3 identitySlot .empty := by
  simp [boot, setCr0, setCr3, setCr4, setEfer, record]

theorem frames_boot (m : Machine α) : m.boot.machine.frames = m.frames := by
  simp [boot, setCr0, setCr3, setCr4, setEfer, record]

theorem registers_boot (m : Machine α) : m.boot.machine.registers =
    { cr0 := m.registers.cr0 ∪ Cr0.writeProtect
      cr3 := m.registers.cr3
      cr4 := m.registers.cr4 ∪ (if (Features.reported m.cpuid).smep then Cr4.smep else ∅) ∪
        (if (Features.reported m.cpuid).smap then Cr4.smap else ∅)
      efer := m.registers.efer ∪ Efer.noExecuteEnable } := by
  unfold boot
  rw [registers_note]
  simp only [setCr3, record, write, registers_note]
  rfl

theorem root_boot (m : Machine α) : m.boot.root = m.registers.cr3 := by
  unfold boot
  simp only [registers_note]
  rfl

/-! ## Actions -/

/-- What has been done to the machine so far, notices for the log aside. -/
def actions (m : Machine α) : List Event := m.history.filter (!·.isNotice)

@[simp] theorem actions_note (m : Machine α) (n : Notice) : (m.note n).actions = m.actions := by
  obtain ⟨es, he, hn⟩ := history_notices [n] m
  have hnone : es.filter (!·.isNotice) = [] := List.filter_eq_nil_iff.2 fun e h => by
    obtain ⟨n, rfl⟩ := hn e h
    simp [Event.isNotice]
  rw [actions, show m.note n = [n].foldl note m from rfl, he, List.filter_append, hnone,
    List.append_nil, actions]

theorem actions_record (m : Machine α) {e : Event} (he : e.isNotice = false) :
    (m.record e).actions = m.actions ++ [e] := by
  have hkept : [e].filter (!·.isNotice) = [e] := List.filter_eq_self.2 fun x hx => by
    rw [List.mem_singleton.1 hx, he]
    rfl
  rw [actions, history_record, List.filter_append, hkept, actions]

theorem actions_write (m : Machine α) (t : PAddr) (i : Index) (e : Entry) :
    (m.write t i e).actions = m.actions ++ [.wrote t i e] := actions_record _ rfl

theorem actions_setCr0 (m : Machine α) (x : Cr0) :
    (m.setCr0 x).actions = m.actions ++ [.wroteCr0 x] := actions_record _ rfl

theorem actions_setCr3 (m : Machine α) (root : PAddr) :
    (m.setCr3 root).actions = m.actions ++ [.wroteCr3 root] := actions_record _ rfl

theorem actions_setCr4 (m : Machine α) (x : Cr4) :
    (m.setCr4 x).actions = m.actions ++ [.wroteCr4 x] := actions_record _ rfl

theorem actions_setEfer (m : Machine α) (x : Efer) :
    (m.setEfer x).actions = m.actions ++ [.wroteEfer x] := actions_record _ rfl

/-- **What boot does**: the three registers, the identity mapping, and CR3 after it. -/
theorem actions_boot (m : Machine α) : m.boot.machine.actions = m.actions ++
    [.wroteCr0 m.boot.machine.registers.cr0, .wroteCr4 m.boot.machine.registers.cr4,
      .wroteEfer m.boot.machine.registers.efer, .wrote m.registers.cr3 identitySlot .empty,
      .wroteCr3 m.registers.cr3] := by
  rw [registers_boot]
  simp only [boot, registers_note, actions_note, actions_setCr3, actions_write, actions_setEfer,
    actions_setCr4, actions_setCr0, List.append_assoc]
  rfl

/-! ## Taking over -/

/-- **All that boot does** to the machine `m`. -/
structure TakenOver (m : Machine α) (k : Kernel α) : Prop where
  root : k.root = m.registers.cr3
  cr0 : ∀ i < 64, k.machine.registers.cr0.bits.getLsbD i = true ↔
    m.registers.cr0.bits.getLsbD i = true ∨ i = 16
  cr3 : k.machine.registers.cr3 = m.registers.cr3
  cr4 : ∀ i < 64, k.machine.registers.cr4.bits.getLsbD i = true ↔
    m.registers.cr4.bits.getLsbD i = true ∨
      7 ≤ (m.cpuid 0 0).eax.toNat ∧ (i = 20 ∧ (m.cpuid 7 0).ebx.getLsbD 7 = true ∨
        i = 21 ∧ (m.cpuid 7 0).ebx.getLsbD 20 = true)
  efer : ∀ i < 64, k.machine.registers.efer.bits.getLsbD i = true ↔
    m.registers.efer.bits.getLsbD i = true ∨ i = 11
  actions : k.machine.actions = m.actions ++ [.wroteCr0 k.machine.registers.cr0,
    .wroteCr4 k.machine.registers.cr4, .wroteEfer k.machine.registers.efer,
    .wrote k.root identitySlot .empty, .wroteCr3 k.root]
  frames : k.machine.frames = m.frames
  entry : ∀ t i, k.machine.memory.entry t i =
    if t = k.root ∧ i = identitySlot then .empty else m.memory.entry t i
  identity : ∀ v, Level.pml4.index v = identitySlot →
    k.machine.memory.walk k.root v = .missing .pml4 k.root
  others : ∀ v, Level.pml4.index v ≠ identitySlot →
    k.machine.memory.walk k.root v = m.memory.walk k.root v
  virt : k.widths.virt = Widths.measured m.cpuid 1 48
  phys : k.widths.phys = Widths.measured m.cpuid 0 36
  bounds : 1 ≤ k.widths.virt ∧ k.widths.virt ≤ 64 ∧ 1 ≤ k.widths.phys ∧ k.widths.phys ≤ 64
  defined : k.widths.BoundsDefined

theorem cr4_boot (m : Machine α) {i : Nat} (hi : i < 64) :
    m.boot.machine.registers.cr4.bits.getLsbD i = true ↔
      m.registers.cr4.bits.getLsbD i = true ∨
        7 ≤ (m.cpuid 0 0).eax.toNat ∧ (i = 20 ∧ (m.cpuid 7 0).ebx.getLsbD 7 = true ∨
          i = 21 ∧ (m.cpuid 7 0).ebx.getLsbD 20 = true) := by
  have hmax : (m.cpuid 0 0).eax < 7 ↔ ¬ 7 ≤ (m.cpuid 0 0).eax.toNat := by
    rw [BitVec.lt_def, Nat.not_le]
    rfl
  rw [registers_boot]
  change (_ ∪ (if _ then FlagSet.bit 20 else ∅) ∪
    if _ then FlagSet.bit 21 else ∅).bits.getLsbD i = true ↔ _
  rw [FlagSet.getLsbD_union_ite hi, FlagSet.getLsbD_union_ite hi, or_assoc]
  refine or_congr_right ?_
  unfold Features.reported
  by_cases h : 7 ≤ (m.cpuid 0 0).eax.toNat
  · rw [if_neg fun hlt => hmax.1 hlt h]
    simp only [h, true_and, and_comm]
  · rw [if_pos (hmax.2 h)]
    refine iff_of_false ?_ fun hx => h hx.1
    rintro (⟨hb, -⟩ | ⟨hb, -⟩) <;> cases hb

theorem TakenOver.of_tree (h : m.memory.Tree m.registers.cr3) : TakenOver m m.boot where
  root := root_boot m
  cr0 i hi := by
    rw [registers_boot]
    exact FlagSet.getLsbD_union_bit hi
  cr3 := by rw [registers_boot]
  cr4 i hi := cr4_boot m hi
  efer i hi := by
    rw [registers_boot]
    exact FlagSet.getLsbD_union_bit hi
  actions := by
    rw [root_boot]
    exact actions_boot m
  frames := frames_boot m
  entry t i := by
    rw [memory_boot, root_boot, Memory.entry_set]
    simp only [eq_comm]
  identity v hv := by
    rw [memory_boot, root_boot, ← hv]
    exact Memory.walk_clear_root _ _ v
  others v hv := by
    rw [memory_boot, root_boot]
    exact Memory.walk_set_root h .empty hv
  virt := (Widths.reported_eq m.cpuid).1
  phys := (Widths.reported_eq m.cpuid).2
  bounds := ⟨m.boot.widths.virt_pos, m.boot.widths.virt_le, m.boot.widths.phys_pos,
    m.boot.widths.phys_le⟩
  defined := .of _

variable [FrameSource α] {used : Set PAddr}

theorem WellFormed.boot (h : WellFormed used m.registers.cr3 m) :
    WellFormed used m.boot.root m.boot.machine := by
  have hle : ∀ p t, m.boot.machine.memory.tableAt m.registers.cr3 p = some t →
      m.memory.tableAt m.registers.cr3 p = some t := fun p t ht => by
    rw [memory_boot] at ht
    exact Memory.tableAt_of_clear_root h.tree ht
  have hheld : ∀ t, m.boot.machine.Holds t ↔ m.Holds t := fun t => holds_congr (frames_boot m)
  rw [root_boot]
  refine ⟨frames_boot m ▸ h.honest, h.tree.of_le hle, fun p t hp ht => ?_,
    h.rooted.imp_left (hheld _).2⟩
  exact (hheld t).2 (h.held p t hp (hle p t ht))

/-- **Boot takes over any machine** whose hierarchy is a tree, and keeps one that is well-formed. -/
theorem boot_takes_over (h : m.memory.Tree m.registers.cr3) : TakenOver m m.boot ∧
    ∀ used, WellFormed used m.registers.cr3 m → WellFormed used m.boot.root m.boot.machine :=
  ⟨.of_tree h, fun _ hw => hw.boot⟩

/-- **A machine as a loader leaves it**: the page at zero and one of the image are mapped, and the
processor reports SMEP, a physical width of 52 bits and a virtual one of none. -/
def loaded : Machine FramePool :=
  { Call.runAll .assumed ⟨0x1000⟩
      [.mapPage ⟨0x9000⟩ ⟨0⟩ ∅, .mapPage ⟨0xa000⟩ ⟨0xffffff8000000000⟩ ∅]
      (unmapped ⟨0x1000⟩ 8) with
    registers := ⟨⟨0x80000011⟩, ⟨0x1000⟩, ⟨0x400020⟩, ⟨0x500⟩⟩
    cpuid := fun leaf _ =>
      if leaf = 0 then { eax := 7 }
      else if leaf = 7 then { ebx := 0x80 }
      else if leaf = 0x80000000 then { eax := 0x80000008 }
      else { eax := 52 } }

/-- The page at zero is lost, the page of the image is kept, and the virtual width is assumed. -/
theorem boot_takes_over_loaded : TakenOver loaded loaded.boot ∧
    WellFormed (FramePool.pinnedSet ⟨0x1000⟩ 1) loaded.boot.root loaded.boot.machine ∧
    (loaded.memory.walk ⟨0x1000⟩ ⟨0⟩).target? = some (⟨0x9000⟩, ∅) ∧
    loaded.boot.machine.memory.walk ⟨0x1000⟩ ⟨0⟩ = .missing .pml4 ⟨0x1000⟩ ∧
    (loaded.boot.machine.memory.walk ⟨0x1000⟩ ⟨0xffffff8000000000⟩).target? = some (⟨0xa000⟩, ∅) ∧
    loaded.boot.machine.registers.cr4 = ⟨0x500020⟩ ∧
    loaded.boot.widths.virt = 48 ∧ loaded.boot.widths.phys = 52 := by
  have key : ∀ (m : Machine FramePool) (r : Registers) (cpu : Cpuid),
      Owns (FramePool.pinnedSet ⟨0x1000⟩ 1) ∅ ⟨0x1000⟩ m →
      WellFormed (FramePool.pinnedSet ⟨0x1000⟩ 1) ⟨0x1000⟩
        { m with registers := r, cpuid := cpu } :=
    fun _ _ _ h => Owns.wellFormed (h.congr rfl rfl)
  have h : WellFormed (FramePool.pinnedSet ⟨0x1000⟩ 1) ⟨0x1000⟩ loaded :=
    key _ _ _ ((owns_unmapped rfl (by decide) (by decide)).runAll _ _).owns
  obtain ⟨htaken, hwell⟩ := boot_takes_over (m := loaded) h.tree
  refine ⟨htaken, hwell _ h, ?_, ?_, ?_, ?_, ?_, ?_⟩ <;> decide +kernel

end Machine

end VirtualMemory
