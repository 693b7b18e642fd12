import ChanFlow.Proofs.Once
import ChanFlow.Proofs.Rereading

/-!
The edges that the analysis follows.

Every instruction of a block is interpreted, and a jump or branch is followed wherever it stands. A
block is linked by its last instruction alone. So an edge that is followed is named by some instruction
of the block it leaves, and it is one of the linked edges exactly if the last instruction names it.
-/
namespace ChanFlow.Analysis

open Ssa

variable {p : Program} {o : Options}

/-- Only edges that an instruction names are followed. -/
theorem leaves_of_stops {n src dst : Nat} {m : Machine} (follows : StopsAt p o n (.edge src dst) m) :
    Interpretable p m.act.func ∧ Leaves m.act.func src dst := by
  obtain ⟨entry, found, stops⟩ := follows
  let following (point : Point) (m : Machine) : Prop :=
    ∀ src dst, point = .edge src dst → Interpretable p m.act.func ∧ Leaves m.act.func src dst
  have edge {m : Machine} {src dst : Nat} (tidy : Tidy p m) (leaves : Leaves m.act.func src dst) :
      following (.edge src dst) m := by
    rintro _ _ ⟨⟩
    exact ⟨tidy.known, leaves⟩
  have lawful : (Conduct.stopping following).Lawful ⟨p, o⟩ (History p o entry n) :=
    Conduct.lawful_stopping _ (fun _ _ => nofun) edge (fun _ => nofun) nofun nofun
  exact (lawful.leads found trivial).error stops _ rfl src dst rfl

/-- An edge is linked, at both its ends, exactly if the last instruction of the block it leaves names it. -/
theorem linked_iff {f : Function} (linked : f.Linked) {src dst : Nat} {b : Block} (found : f.block? src = some b) :
    (dst ∈ b.succs ∧ ∃ b', f.block? dst = some b' ∧ src ∈ b'.preds) ↔
      ∃ last, b.instrs.getLast? = some last ∧ dst ∈ last.successors := by
  obtain ⟨term, ends, succs, inside⟩ := linked.terminator found
  have last : b.instrs.getLast? = some term := (Option.filter_eq_some_iff.1 ends).1
  have named : dst ∈ b.succs ↔ ∃ last, b.instrs.getLast? = some last ∧ dst ∈ last.successors := by
    simp [last, succs]
  rw [← named]
  refine ⟨And.left, fun member => ⟨member, ?_⟩⟩
  obtain ⟨b', there⟩ : ∃ b', f.block? dst = some b' := ⟨_, List.getElem?_eq_getElem (inside dst member)⟩
  exact ⟨b', there, (linked.mem_preds there).2 ⟨b, found, member⟩⟩

/-- Each edge that is followed while a program text is analysed is named by an instruction of the block
it leaves, and it is linked, at both its ends, exactly if that block's last instruction names it. -/
theorem followed_edge_linked_iff {text : String} (read : (Program.read text).result = .ok p) {n src dst : Nat}
    {m : Machine} (follows : StopsAt p o n (.edge src dst) m) :
    ∃ b, m.act.func.block? src = some b ∧ (∃ i ∈ b.instrs, dst ∈ i.successors) ∧
      ((dst ∈ b.succs ∧ ∃ b', m.act.func.block? dst = some b' ∧ src ∈ b'.preds) ↔
        ∃ last, b.instrs.getLast? = some last ∧ dst ∈ last.successors) := by
  obtain ⟨⟨known, -⟩, i, ⟨b, found, inside⟩, names⟩ := leaves_of_stops follows
  have linked := (Program.gathered_of_read read).1.assembled.linked _ (List.mem_of_find?_eq_some known)
  exact ⟨b, found, ⟨i, inside, names⟩, linked_iff linked found⟩

/-- Jumps twice. -/
def straying : String := "func main.main()
block 0:
  jump 1
  jump 2
block 1:
  return
block 2:
  return
"

theorem exists_stop_of_read {text : String} {n : Nat} {point : Point} {P : Machine → Prop} [DecidablePred P]
    (found : (Program.read text).result.toOption.any fun p => (stop? p o n).any fun s => s.1 = point ∧ P s.2) :
    ∃ p m, (Program.read text).result = .ok p ∧ StopsAt p o n point m ∧ P m := by
  cases read : (Program.read text).result with
  | error e =>
    rw [read] at found
    exact nomatch found
  | ok p =>
    rw [read] at found
    obtain ⟨m, stops, holds⟩ := exists_stop found
    exact ⟨p, m, rfl, stops, holds⟩

theorem straying_second_linked : ∃ p m b, (Program.read straying).result = .ok p ∧ StopsAt p {} 4 (.edge 0 2) m ∧
    m.act.func.block? 0 = some b ∧ 2 ∈ b.succs := by
  obtain ⟨p, m, read, stops, last⟩ : ∃ p m, (Program.read straying).result = .ok p ∧
    StopsAt p {} 4 (.edge 0 2) m ∧
      (m.act.func.block? 0).map (·.instrs.getLast?.map (·.successors)) = some (some [2]) :=
    exists_stop_of_read (by decide +kernel)
  obtain ⟨b, found, -, linked⟩ := followed_edge_linked_iff read stops
  rw [found] at last
  obtain ⟨term, ends, names⟩ := Option.map_eq_some_iff.1 (Option.some.inj last)
  exact ⟨p, m, b, read, stops, found, (linked.2 ⟨term, ends, by simp [names]⟩).1⟩

/-- The first jump is followed and not linked. -/
theorem straying_first_unlinked : ∃ p m, (Program.read straying).result = .ok p ∧ StopsAt p {} 1 (.edge 0 1) m ∧
    (m.act.func.block? 0).map (·.succs) = some [2] :=
  exists_stop_of_read (by decide +kernel)

end ChanFlow.Analysis
