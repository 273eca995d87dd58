import VirtualMemory.Mapping.Span

/-!
# Calls on a hierarchy

The five calls that change a hierarchy, as data, and runs of them.
-/

namespace VirtualMemory

/-- **A call on the hierarchy of a root.** -/
inductive Call where
  | mapPage (p : PAddr) (v : VAddr) (a : Attributes)
  | mapLarge (p : PAddr) (v : VAddr) (a : Attributes)
  | mapSpan (s : Span) (a : Attributes)
  | unmapPage (v : VAddr)
  | unmapPages (v : VAddr) (count : Nat)
deriving DecidableEq

namespace Call

variable {α : Type} [FrameSource α]

def run (w : Widths) (root : PAddr) (m : Machine α) : Call → Except MapError Unit × Machine α
  | mapPage p v a => m.mapPage w root p v a
  | mapLarge p v a => m.mapLarge w root p v a
  | mapSpan s a => m.mapSpan w root s a
  | unmapPage v => (.ok (), m.unmapPage root v)
  | unmapPages v count => m.unmapPages w root v count

/-- **Carries out calls one after the other**, whatever their answers. -/
def runAll (w : Widths) (root : PAddr) (calls : List Call) (m : Machine α) : Machine α :=
  calls.foldl (fun m c => (c.run w root m).2) m

@[simp] theorem runAll_nil (w : Widths) (root : PAddr) (m : Machine α) : runAll w root [] m = m :=
  rfl

@[simp] theorem runAll_cons (w : Widths) (root : PAddr) (c : Call) (calls : List Call)
    (m : Machine α) : runAll w root (c :: calls) m = runAll w root calls (c.run w root m).2 := rfl

theorem runAll_concat (w : Widths) (root : PAddr) (calls : List Call) (c : Call) (m : Machine α) :
    runAll w root (calls ++ [c]) m = (c.run w root (runAll w root calls m)).2 :=
  List.foldl_append

end Call

end VirtualMemory
