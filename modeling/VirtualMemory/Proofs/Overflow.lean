import VirtualMemory.Proofs.Halves

/-!
# No overflow

Words wrap at the top, tables end at entry 511, and the list of the tables that a call has made
holds three. Here the computations are done once more with operations that fail where one of these
limits is passed. They never fail, and come to the same: the guards stand in other places than the
sums they protect, but they protect all of them.

* `Checked`: operations on words and short lists that fail instead of going wrong;
* `Widths.lowEnd?` and its like, `Span.pages?`, `Address.addPages?`, `Level.index?`: computations
  with these operations;
* `Machine.writeLeaf?`, `Machine.mapSpan?`: the calls (**`writeLeaf?_eq`**, **`mapSpan?_eq`**);
* **`never_overflows`**: all of them are as they were.
-/

namespace VirtualMemory

/-! ## Operations that fail -/

namespace Checked

variable {β : Type} {n : Nat} {a b : BitVec 64}

/-- A difference that is not below zero. -/
def sub? (a b : BitVec 64) : Option (BitVec 64) := if b ≤ a then some (a - b) else none

/-- A shift by less than the width of a word. -/
def shl? (a : BitVec 64) (n : Nat) : Option (BitVec 64) := if n < 64 then some (a <<< n) else none

/-- A sum below the top. -/
def add? (a b : BitVec 64) : Option (BitVec 64) :=
  if a.toNat + b.toNat < 2 ^ 64 then some (a + b) else none

/-- The length of some pages in bytes, below the top. -/
def pages? (n : Nat) : Option (BitVec 64) :=
  if n * 4096 < 2 ^ 64 then some (BitVec.ofNat 64 (n * 4096)) else none

/-- A list with one more element, and at most `capacity` of them. -/
def push? (capacity : Nat) (x : β) (xs : List β) : Option (List β) :=
  if xs.length < capacity then some (x :: xs) else none

theorem sub?_of_le (h : b ≤ a) : sub? a b = some (a - b) := if_pos h

theorem shl?_of_lt (h : n < 64) : shl? a n = some (a <<< n) := if_pos h

theorem add?_of_lt (h : a.toNat + b.toNat < 2 ^ 64) : add? a b = some (a + b) := if_pos h

theorem pages?_of_lt (h : n * 4096 < 2 ^ 64) : pages? n = some (BitVec.ofNat 64 (n * 4096)) :=
  if_pos h

theorem push?_of_lt {capacity : Nat} {x : β} {xs : List β} (h : xs.length < capacity) :
    push? capacity x xs = some (x :: xs) := if_pos h

theorem ones?_of_lt (h : n < 64) : (do sub? (← shl? 1#64 n) 1#64) = some ((1#64 <<< n) - 1#64) := by
  have hone : 1 ≤ 2 ^ n := Nat.one_le_two_pow
  have hlt : 2 ^ n < 2 ^ 64 := Nat.pow_lt_pow_right (by decide) h
  have hle : 1#64 ≤ 1#64 <<< n := by
    rw [BitVec.le_def, BitVec.toNat_shiftLeft, BitVec.toNat_ofNat, Nat.one_mod_eq_one.2 (by decide),
      Nat.one_shiftLeft, Nat.mod_eq_of_lt hlt]
    exact hone
  rw [shl?_of_lt h]
  exact sub?_of_le hle

end Checked

open Checked

/-! ## Bounds, lengths and addresses -/

namespace Widths

def lowEnd? (virt : Nat) : Option (BitVec 64) :=
  if 1 ≤ virt then do sub? (← shl? 1#64 (virt - 1)) 1#64 else none

def highStart? (virt : Nat) : Option (BitVec 64) := return ~~~ (← lowEnd? virt)

def physEnd? (phys : Nat) : Option (BitVec 64) :=
  if 64 ≤ phys then some (BitVec.allOnes 64) else do sub? (← shl? 1#64 phys) 1#64

/-- **The bounds are defined**: no shift reaches 64, and no difference is below zero. -/
structure BoundsDefined (w : Widths) : Prop where
  lowEnd : lowEnd? w.virt = some w.lowEnd
  highStart : highStart? w.virt = some w.highStart
  physEnd : physEnd? w.phys = some w.physEnd

theorem BoundsDefined.of (w : Widths) : w.BoundsDefined := by
  have hlow : lowEnd? w.virt = some w.lowEnd := by
    have hvirt := w.virt_le
    rw [lowEnd?, if_pos w.virt_pos]
    exact ones?_of_lt (by omega)
  refine ⟨hlow, ?_, ?_⟩
  · rw [highStart?, hlow]
    rfl
  · rw [physEnd?, Widths.physEnd]
    split
    · rfl
    · exact ones?_of_lt (by omega)

end Widths

namespace Span

/-- The number of pages, rounded up. -/
def pages? (s : Span) : Option (BitVec 64) :=
  let whole := s.size / 4096
  if s.size % 4096 = 0 then some whole else add? whole 1

/-- **The number of pages is a word**, the least whose length in bytes is at least the size. -/
theorem pages?_eq (s : Span) : (s.pages?.map BitVec.toNat) = some s.pages := by
  have hsize := s.size.isLt
  have hwhole : (s.size / 4096).toNat = s.size.toNat / 4096 := BitVec.toNat_udiv
  unfold pages? pages
  split
  · rfl
  · rw [add?_of_lt]
    · rfl
    · rw [hwhole]
      change s.size.toNat / 4096 + 1 < 2 ^ 64
      omega

theorem pages_le_iff (s : Span) (n : Nat) : s.pages ≤ n ↔ s.size.toNat ≤ n * 4096 := by
  rw [pages_eq]
  omega

theorem exists_ofPages?_iff (v : VAddr) (p : PAddr) (n : Nat) :
    (∃ s, ofPages? v p n = some s ∧ s.pages = n) ↔ n * 4096 < 2 ^ 64 := by
  constructor
  · rintro ⟨s, hs, -⟩
    exact (ofPages?_eq_some_iff.1 hs).1
  · intro h
    have hs : ofPages? v p n = some ⟨v, p, BitVec.ofNat 64 (n * 4096)⟩ :=
      ofPages?_eq_some_iff.2 ⟨h, rfl⟩
    exact ⟨_, hs, pages_of_ofPages? hs⟩

end Span

/-- The address some pages further up, below the top. -/
def Address.addPages? {k : AddressKind} (a : Address k) (i : Nat) : Option (Address k) := do
  let bits ← add? a.bits (← Checked.pages? i)
  return ⟨bits⟩

theorem Address.addPages?_of_lt {k : AddressKind} {a : Address k} {i : Nat}
    (h : a.bits.toNat + i * 4096 < 2 ^ 64) : a.addPages? i = some (a.addPages i) := by
  have hlen : i * 4096 < 2 ^ 64 := Nat.lt_of_le_of_lt (Nat.le_add_left _ _) h
  have hadd : a.bits.toNat + (BitVec.ofNat 64 (i * 4096)).toNat < 2 ^ 64 := by
    rwa [BitVec.toNat_ofNat, Nat.mod_eq_of_lt hlen]
  simp only [addPages?, pages?_of_lt hlen, add?_of_lt hadd, Option.bind_eq_bind, Option.bind_some]
  rfl

/-- The entry that an address selects, if the table has it. -/
def Level.index? (l : Level) (v : VAddr) : Option Index :=
  if l.shift < 64 then
    let i := ((v.bits >>> l.shift) &&& 511#64).toNat
    if h : i < 512 then some ⟨i, h⟩ else none
  else none

theorem Level.index?_eq (l : Level) (v : VAddr) : l.index? v = some (l.index v) := by
  have hshift : l.shift < 64 := by cases l <;> decide
  have hval : ((v.bits >>> l.shift) &&& 511#64).toNat = (l.index v).val := by
    rw [Level.index, Address.index_val, BitVec.toNat_and, BitVec.toNat_ushiftRight]
    exact Nat.and_two_pow_sub_one_eq_mod _ 9
  simp only [index?, if_pos hshift, hval, Fin.is_lt, dite_true]

/-! ## Calls -/

namespace Machine

variable {α : Type} [FrameSource α]

/-- Goes down to the leaf's table. A call has room for three tables that it has made. -/
def makePath? (v : VAddr) (link : EntryFlags) (leaf : Level) (n : Nat) (table : PAddr)
    (made : List NewTable) (m : Machine α) :
    Option (Except MapError PAddr × List NewTable × Machine α) :=
  match n with
  | 0 => some (.ok table, made, m)
  | n + 1 => do
    let level := Level.ofHeight (leaf.height + n + 1)
    let i ← level.index? v
    let e := if made.isEmpty then m.entry table i else .empty
    match e.role level with
    | .leaf => some (.error .sizeMismatch, made, m)
    | .link child => makePath? v link leaf n child made m
    | .absent =>
      match m.allocate with
      | (none, m) => some (.error .outOfFrames, made, m)
      | (some child, m) => do
        let m := ((m.zero child).write table i (.make child link)).note (.linked v level child)
        makePath? v link leaf n child (← push? 3 ⟨table, i, child⟩ made) m

def writeLeaf? (root p : PAddr) (v : VAddr) (leaf : Level) (flags : EntryFlags) (m : Machine α) :
    Option (Except MapError Unit × Machine α) := do
  match ← m.makePath? v flags.asLink leaf (3 - leaf.height) root [] with
  | (.error e, made, m) => some (.error e, m.takeBack made)
  | (.ok table, made, m) =>
    let i ← leaf.index? v
    match (m.entry table i).role leaf with
    | .link _ => some (.error .sizeMismatch, m.takeBack made)
    | .absent => some (.ok (), m.write table i (.make p flags))
    | .leaf => some (.ok (), (m.write table i (.make p flags)).flush v)

def mapPage? (w : Widths) (root p : PAddr) (v : VAddr) (a : Attributes) (m : Machine α) :
    Option (Except MapError Unit × Machine α) :=
  if !w.admitsFrame p || !w.admitsPage v then some (.error .invalidAddress, m)
  else m.writeLeaf? root p v .pt a.encode.asLeaf

def unwind? (root : PAddr) (v : VAddr) (count : Nat) (m : Machine α) : Option (Machine α) :=
  match count with
  | 0 => some m
  | n + 1 => return (← unwind? root v n m).unmapPage root (← v.addPages? n)

def mapSpanFrom? (w : Widths) (root : PAddr) (s : Span) (a : Attributes) (left i : Nat)
    (m : Machine α) : Option (Except MapError Unit × Machine α) :=
  match left with
  | 0 => some (.ok (), m)
  | left + 1 => do
    match ← m.mapPage? w root (← s.phys.addPages? i) (← s.virt.addPages? i) a with
    | (.ok (), m) => mapSpanFrom? w root s a left (i + 1) m
    | (.error e, m) =>
      return (.error e, ← (m.note (.runFailed s.pages s.virt i e)).unwind? root s.virt i)

def mapSpan? (w : Widths) (root : PAddr) (s : Span) (a : Attributes) (m : Machine α) :
    Option (Except MapError Unit × Machine α) :=
  if !w.admitsPages s.virt s.pages || !w.admitsFrames s.phys s.pages then
    some (.error .invalidAddress, m)
  else m.mapSpanFrom? w root s a s.pages 0

variable {w : Widths} {root p t : PAddr} {v : VAddr} {s : Span} {a : Attributes} {f : EntryFlags}
  {leaf : Level} {n i left : Nat} {made : List NewTable} {m : Machine α}

/-- **The list of tables does not overflow**, as each table is one level further down. -/
theorem makePath?_eq (h : made.length + n ≤ 3) :
    m.makePath? v f leaf n t made = some (m.makePath v f leaf n t made) := by
  induction n generalizing t made m with
  | zero => rfl
  | succ n ih =>
    simp only [makePath?, makePath, Level.index?_eq, Option.bind_eq_bind, Option.bind_some]
    generalize Entry.role _ _ = r
    cases r with
    | leaf => rfl
    | link child => exact ih (by omega)
    | absent =>
      rcases m.allocate with ⟨_ | child, m'⟩
      · rfl
      · simp only [push?_of_lt (show made.length < 3 by omega), Option.bind_some]
        exact ih (by simpa using by omega)

theorem length_makePath_le : (m.makePath v f leaf n t made).2.1.length ≤ made.length + n := by
  induction n generalizing t made m with
  | zero => exact Nat.le_refl _
  | succ n ih =>
    simp only [makePath]
    generalize Entry.role _ _ = r
    cases r with
    | leaf => exact Nat.le_add_right _ _
    | link child => exact Nat.le_trans ih (by omega)
    | absent =>
      rcases m.allocate with ⟨_ | child, m'⟩
      · exact Nat.le_add_right _ _
      · exact Nat.le_trans ih (by simpa using by omega)

theorem writeLeaf?_eq (root p : PAddr) (v : VAddr) (leaf : Level) (f : EntryFlags)
    (m : Machine α) : m.writeLeaf? root p v leaf f = some (m.writeLeaf root p v leaf f) := by
  have hpath : m.makePath? v f.asLink leaf (3 - leaf.height) root [] =
      some (m.makePath v f.asLink leaf (3 - leaf.height) root []) :=
    makePath?_eq (by simp)
  rw [writeLeaf?, hpath, Option.bind_eq_bind, Option.bind_some, writeLeaf]
  rcases m.makePath v f.asLink leaf (3 - leaf.height) root [] with ⟨_ | table, made, m'⟩
  · rfl
  · simp only [Level.index?_eq, Option.bind_eq_bind, Option.bind_some]
    generalize Entry.role _ _ = r
    cases r <;> rfl

theorem mapPage?_eq (w : Widths) (root p : PAddr) (v : VAddr) (a : Attributes) (m : Machine α) :
    m.mapPage? w root p v a = some (m.mapPage w root p v a) := by
  rw [mapPage?, mapPage, writeLeaf?_eq]
  split <;> rfl

theorem unwind?_eq (h : ∀ i < n, v.bits.toNat + i * 4096 < 2 ^ 64) :
    m.unwind? root v n = some (m.unwind root v n) := by
  induction n with
  | zero => rfl
  | succ n ih =>
    rw [unwind?, ih fun i hi => h i (by omega), Address.addPages?_of_lt (h n (Nat.lt_succ_self n)),
      unwind_succ]
    rfl

theorem mapSpanFrom?_eq (h : ∀ j < i + left, s.virt.bits.toNat + j * 4096 < 2 ^ 64 ∧
    s.phys.bits.toNat + j * 4096 < 2 ^ 64) :
    m.mapSpanFrom? w root s a left i = some (m.mapSpanFrom w root s a left i) := by
  induction left generalizing i m with
  | zero => rfl
  | succ left ih =>
    obtain ⟨hvirt, hphys⟩ := h i (by omega)
    rw [mapSpanFrom?, Address.addPages?_of_lt hphys, Address.addPages?_of_lt hvirt]
    simp only [Option.bind_eq_bind, Option.bind_some, mapPage?_eq, mapSpanFrom]
    rcases m.mapPage w root (s.phys.addPages i) (s.virt.addPages i) a with ⟨_ | _, m'⟩
    · simp only [unwind?_eq fun j (hj : j < i) => (h j (by omega)).1, Option.bind_some]
      rfl
    · exact ih fun j hj => h j (by omega)

end Machine

/-- **The addresses of an admitted run** all lie below the top, without wrapping. -/
theorem Widths.run_below_top {w : Widths} {v : VAddr} {p : PAddr} {n i : Nat}
    (hv : w.admitsPages v n = true) (hp : w.admitsFrames p n = true) (hi : i < n) :
    v.bits.toNat + i * 4096 < 2 ^ 64 ∧ p.bits.toNat + i * 4096 < 2 ^ 64 :=
  ⟨(admitsPages_iff_forall.1 hv i (by omega)).1, (admitsFrames_iff_forall.1 hp i (by omega)).1⟩

namespace Machine

variable {α : Type} [FrameSource α]

/-- **The checks of a span are enough** for all of its addresses. -/
theorem mapSpan?_eq (w : Widths) (root : PAddr) (s : Span) (a : Attributes) (m : Machine α) :
    m.mapSpan? w root s a = some (m.mapSpan w root s a) := by
  rw [mapSpan?, mapSpan]
  split
  · rfl
  · rename_i hadmits
    simp only [Bool.or_eq_true, Bool.not_eq_true', not_or, Bool.not_eq_false] at hadmits
    apply mapSpanFrom?_eq
    rw [Nat.zero_add]
    exact fun j hj => Widths.run_below_top hadmits.1 hadmits.2 hj

end Machine

/-- **Nothing overflows**: with checked words the bounds, the lengths of spans, the addresses of
admitted runs and the list of new tables come out as without checks. -/
theorem never_overflows {α : Type} [FrameSource α] :
    ((∀ virt phys, (Widths.ofReported virt phys).BoundsDefined) ∧
      ∀ eax, (Widths.ofPacked eax).BoundsDefined) ∧
    (∀ s : Span, s.pages?.map BitVec.toNat = some s.pages ∧
      ∀ n, s.pages ≤ n ↔ s.size.toNat ≤ n * 4096) ∧
    (∀ v p n, (∃ s, Span.ofPages? v p n = some s ∧ s.pages = n) ↔ n * 4096 < 2 ^ 64) ∧
    (∀ (w : Widths) (s : Span), w.admitsPages s.virt s.pages = true →
      w.admitsFrames s.phys s.pages = true → ∀ i < s.pages, i * 4096 < 2 ^ 64 ∧
        s.virt.bits.toNat + i * 4096 < 2 ^ 64 ∧ s.phys.bits.toNat + i * 4096 < 2 ^ 64) ∧
    (∀ (w : Widths) (root : PAddr) (s : Span) (a : Attributes) (m : Machine α),
      m.mapSpan? w root s a = some (m.mapSpan w root s a)) ∧
    ∀ (root p : PAddr) (v : VAddr) (leaf : Level) (f : EntryFlags) (m : Machine α),
      m.writeLeaf? root p v leaf f = some (m.writeLeaf root p v leaf f) ∧
      (m.makePath v f.asLink leaf (3 - leaf.height) root []).2.1.length ≤ 3 := by
  refine ⟨⟨fun virt phys => .of _, fun eax => .of _⟩, fun s => ⟨s.pages?_eq, s.pages_le_iff⟩,
    Span.exists_ofPages?_iff, fun w s hv hp i hi => ?_, Machine.mapSpan?_eq,
    fun root p v leaf f m => ⟨Machine.writeLeaf?_eq root p v leaf f m, ?_⟩⟩
  · obtain ⟨hvirt, hphys⟩ := Widths.run_below_top hv hp hi
    exact ⟨Nat.lt_of_le_of_lt (Nat.le_add_left _ _) hvirt, hvirt, hphys⟩
  · refine Nat.le_trans Machine.length_makePath_le ?_
    rw [List.length_nil, Nat.zero_add]
    exact Nat.sub_le _ _

theorem last_pages_below_top :
    let s : Span := ⟨⟨0xffffffffffffe000⟩, ⟨0xffffffffffffe000⟩, 0x1001⟩
    s.pages = 2 ∧ s.virt.bits.toNat + s.pages * 4096 = 2 ^ 64 ∧
      ∀ i < s.pages, i * 4096 < 2 ^ 64 ∧ s.virt.bits.toNat + i * 4096 < 2 ^ 64 ∧
        s.phys.bits.toNat + i * 4096 < 2 ^ 64 := by
  intro s
  have hv : (Widths.ofReported 64 64).admitsPages s.virt s.pages = true := by decide
  have hp : (Widths.ofReported 64 64).admitsFrames s.phys s.pages = true := by decide
  exact ⟨by decide, by decide, (@never_overflows FramePool _).2.2.2.1 _ s hv hp⟩

end VirtualMemory
