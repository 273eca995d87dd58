import VirtualMemory.Block
import Mathlib.Algebra.Group.Nat.Defs
import Mathlib.Data.List.Nodup
import Mathlib.Logic.Function.Iterate

/-!
# Runs, block by block

A run is taken apart one block at a time, and each time its next block and the number of blocks left
are all that it knows. Nothing is skipped or met twice on the way, also where the run goes over the
top of the space and on from zero.

* `Block.up`: the block some places further up, in numbers `toNat_start_up`, and when two of them are
  the same (`up_eq_up_iff`);
* `Run.after`: a run after some attempts to take a block (`next?_after`, `bounds_after`);
* `Run.fold_eq_foldl`: passing a state through a run is a fold over the blocks it yields;
* **`Run.enumerates_blocks`**: all of this, for the run from any address on.
-/

namespace VirtualMemory

namespace Block

variable {k : AddressKind} {s : PageSize} (b : Block k s) (i j : Nat)

/-- **The block `i` places further up.** -/
def up (b : Block k s) (i : Nat) : Block k s := succ^[i] b

theorem up_succ : b.up (i + 1) = b.succ.up i := rfl

theorem start_up : (b.up i).start = b.start + BitVec.ofNat 64 (i * s.bytes.toNat) := by
  induction i with
  | zero =>
    rw [Nat.zero_mul]
    exact Address.ext (BitVec.add_zero _).symm
  | succ i ih =>
    have hstep : (b.up (i + 1)).start = (b.up i).start + s.bytes := by
      rw [up, Function.iterate_succ_apply']
      rfl
    ext1
    rw [hstep, ih, Address.bits_add, Address.bits_add, Address.bits_add, BitVec.add_assoc,
      Nat.succ_mul, BitVec.ofNat_add, BitVec.ofNat_toNat, BitVec.setWidth_eq]

theorem toNat_start_up :
    (b.up i).start.bits.toNat = (b.start.bits.toNat + i * s.bytes.toNat) % 2 ^ 64 := by
  rw [start_up, Address.bits_add, BitVec.toNat_add, BitVec.toNat_ofNat, Nat.add_mod_mod]

/-- **The space holds so many blocks** of a size, and then they come again. -/
theorem up_eq_up_iff : b.up i = b.up j ↔ i % 2 ^ (64 - s.shift) = j % 2 ^ (64 - s.shift) := by
  rw [Block.ext_iff, Address.ext_iff, ← BitVec.toNat_inj, toNat_start_up, toNat_start_up,
    s.toNat_bytes]
  cases s <;>
    simp only [PageSize.shift, Nat.reduceShiftLeft, Nat.reduceSub, Nat.reducePow] <;> omega

end Block

namespace Run

variable {k : AddressKind} {s : PageSize} (r : Run k s) (n : Nat)

/-- **The run after `n` attempts** to take a block. -/
def after (r : Run k s) (n : Nat) : Run k s := (fun r => r.next?.2)^[n] r

theorem after_succ : r.after (n + 1) = r.next?.2.after n := rfl

theorem after_eq : r.after n = ⟨r.next.up (min n r.left), r.left - n⟩ := by
  induction n generalizing r with
  | zero => rw [Nat.zero_min]; rfl
  | succ n ih =>
    obtain ⟨b, left⟩ := r
    rw [after_succ, ih]
    cases left with
    | zero => simp only [next?, Nat.min_zero, Nat.zero_sub]
    | succ left => simp only [next?, Nat.succ_min_succ, Block.up_succ, Nat.succ_sub_succ]

/-- **What the attempts yield**: the blocks from the first on, and then nothing any more. -/
theorem next?_after : (r.after n).next?.1 = if n < r.left then some (r.next.up n) else none := by
  rw [after_eq]
  split
  · rename_i hlt
    obtain ⟨rest, hrest⟩ := Nat.exists_eq_succ_of_ne_zero (Nat.sub_ne_zero_of_lt hlt)
    simp only [next?, hrest, Nat.min_eq_left (Nat.le_of_lt hlt)]
  · rename_i hge
    simp only [next?, Nat.sub_eq_zero_of_le (Nat.le_of_not_lt hge)]

theorem bounds_after :
    (r.after n).bounds = (r.left - min n r.left, some (r.left - min n r.left)) := by
  have hleft : r.left - min n r.left = r.left - n := by omega
  rw [after_eq, hleft]
  rfl

theorem take_eq : r.take n = ((List.range (min n r.left)).map r.next.up, r.after n) := by
  induction n generalizing r with
  | zero => rw [Nat.zero_min]; rfl
  | succ n ih =>
    obtain ⟨b, left⟩ := r
    cases left with
    | zero =>
      have hstay : next? ⟨b, 0⟩ = (none, ⟨b, 0⟩) := rfl
      simp only [take, hstay, ih, after_succ, Nat.min_zero]
    | succ left =>
      have hstep : next? ⟨b, left + 1⟩ = (some b, ⟨b.succ, left⟩) := rfl
      simp only [take, hstep, ih, after_succ, Nat.succ_min_succ, List.range_succ_eq_map,
        List.map_cons, List.map_map]
      rfl

/-- **The blocks of a run differ** as long as it does not come around to its first one. -/
theorem nodup_take_iff (r : Run k s) :
    (r.take r.left).1.Nodup ↔ r.left * s.bytes.toNat ≤ 2 ^ 64 := by
  have hsize : 2 ^ (64 - s.shift) * s.bytes.toNat = 2 ^ 64 := by cases s <;> rfl
  have hpos : 0 < s.bytes.toNat := by cases s <;> decide
  rw [← hsize, Nat.mul_le_mul_right_iff hpos, take_eq, Nat.min_self,
    List.nodup_map_iff_inj_on List.nodup_range]
  simp only [List.mem_range, Block.up_eq_up_iff]
  constructor
  · intro hinj
    by_contra hlong
    have hcount : 0 < 2 ^ (64 - s.shift) := Nat.two_pow_pos _
    have hround := hinj 0 (by omega) (2 ^ (64 - s.shift)) (by omega) (by simp)
    omega
  · intro hle i hi j hj hij
    rwa [Nat.mod_eq_of_lt (by omega), Nat.mod_eq_of_lt (by omega)] at hij

theorem foldFrom_eq {σ : Type} (f : σ → Block k s → σ) (left : Nat) (b : Block k s) (x : σ) :
    foldFrom f left b x = ((List.range left).map b.up).foldl f x := by
  induction left generalizing b x with
  | zero => rfl
  | succ left ih =>
    rw [foldFrom, ih, List.range_succ_eq_map, List.map_cons, List.foldl_cons, List.map_map]
    rfl

theorem foldFrom_succ {σ : Type} (f : σ → Block k s → σ) (b : Block k s) (x : σ) :
    foldFrom f (n + 1) b x = f (foldFrom f n b x) (b.up n) := by
  rw [foldFrom_eq, foldFrom_eq, List.range_succ, List.map_append, List.foldl_append]
  rfl

theorem fold_eq_foldl {σ : Type} (f : σ → Block k s → σ) (x : σ) :
    r.fold f x = (r.take r.left).1.foldl f x := by
  rw [fold, foldFrom_eq, take_eq, Nat.min_self]

/-- **A run enumerates exactly its blocks**, from any address on and around the top of the space,
and then ends; they differ just if they fit into the space. -/
theorem enumerates_blocks (s : PageSize) (a : Address k) (count : Nat) :
    let r : Run k s := (Block.containing a).run count
    (∀ i < count, ∃ b, (r.after i).next?.1 = some b ∧
      b.start.bits.toNat =
        ((a.alignDown s.bytes).bits.toNat + i * s.bytes.toNat) % 2 ^ 64 ∧
      b.start.bits.toNat % s.bytes.toNat = 0) ∧
    (∀ i ≥ count, (r.after i).next?.1 = none) ∧
    (r.take count).1.length = count ∧
    (∀ i, (r.take count).1[i]? = (r.after i).next?.1) ∧
    ((r.take count).1.Nodup ↔ count * s.bytes.toNat ≤ 2 ^ 64) ∧
    (∀ n, (r.after n).bounds = (count - min n count, some (count - min n count))) ∧
    ∀ {σ : Type} (f : σ → Block k s → σ) (x : σ), r.fold f x = (r.take count).1.foldl f x := by
  intro r
  have htake : (r.take count).1 = (List.range count).map r.next.up := by
    rw [take_eq]
    exact congrArg (fun n => (List.range n).map r.next.up) (Nat.min_self count)
  refine ⟨fun i hi => ⟨r.next.up i, ?_, r.next.toNat_start_up i, (r.next.up i).start_toNat_mod⟩,
    fun i hi => ?_, ?_, fun i => ?_, r.nodup_take_iff, r.bounds_after, fun f x => r.fold_eq_foldl f x⟩
  · rw [next?_after]
    exact if_pos hi
  · rw [next?_after]
    exact if_neg (Nat.not_lt_of_le hi)
  · rw [htake, List.length_map, List.length_range]
  · rw [htake, next?_after, List.getElem?_map]
    by_cases hi : i < count
    · rw [List.getElem?_range hi]
      exact (if_pos hi).symm
    · rw [List.getElem?_eq_none (by simpa using hi)]
      exact (if_neg hi).symm

theorem enumerates_last_and_first :
    let r : Run .virtual .kib4 := (Block.containing ⟨0xfffffffffffff123⟩).run 2
    (∃ b, (r.after 1).next?.1 = some b ∧ b.start.bits.toNat = 0) ∧
      (r.after 5).next?.1 = none ∧ (r.take 2).1.Nodup := by
  intro r
  obtain ⟨hyield, hend, -, -, hnodup, -⟩ :=
    enumerates_blocks .kib4 (⟨0xfffffffffffff123⟩ : VAddr) 2
  obtain ⟨b, hb, hstart, -⟩ := hyield 1 (by decide)
  exact ⟨⟨b, hb, hstart.trans (by decide)⟩, hend 5 (by decide), hnodup.2 (by decide)⟩

end Run

end VirtualMemory
