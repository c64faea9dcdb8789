import Mathlib.Data.List.Sigma
import Xiangqi.Proofs.Lines

/-!
# Paths in the tree of legal moves

Below a position stands one child for every entry of its list of legal moves, so a path down the
tree is a sequence of entries: each is a move with the place at which the list has it, and a move
that is listed twice leads to two children. `perft` does not go down to the last ply, where it takes
the length of a list, and still counts the paths.

* `IsPath`, `paths`: the paths from a position, with `mem_paths_iff` and `nodup_paths`.
* `length_paths`: `perft` counts them.
* `paths_add`, `perft_add`: a path is cut in two at any depth.
* `countP_head_paths`: the paths that begin with one entry.
* `perft_counts_paths`: all of it, with the counts by first move.
-/

namespace Xiangqi

namespace Position

/-- An entry of a list of moves: a move and its place in the list. -/
abbrev Entry := MarkedMove × Nat

variable {p : Position} {e : Entry} {es : List Entry} {depth : Nat}

/-- Each entry is one of the list of legal moves after the moves before it. -/
def IsPath (p : Position) : List Entry → Prop
  | [] => True
  | e :: es => p.legalMoves[e.2]? = some e.1 ∧ (p.execute e.1.toMove).IsPath es

/-- The position to which a path leads. -/
def follow (p : Position) (es : List Entry) : Position :=
  es.foldl (fun q e => q.execute e.1.toMove) p

/-- The paths of `depth` entries, first by the first entry. -/
def paths (p : Position) : Nat → List (List Entry)
  | 0 => [[]]
  | depth + 1 =>
    p.legalMoves.zipIdx.flatMap fun e => ((p.execute e.1.toMove).paths depth).map (e :: ·)

theorem mem_paths_iff : es ∈ p.paths depth ↔ es.length = depth ∧ p.IsPath es := by
  induction depth generalizing p es with
  | zero => cases es <;> simp [paths, IsPath]
  | succ depth ih =>
    simp only [paths, List.mem_flatMap, List.mem_map, ih]
    constructor
    · rintro ⟨e, he, es, ⟨hlength, hes⟩, rfl⟩
      exact ⟨by rw [List.length_cons, hlength], List.mk_mem_zipIdx_iff_getElem?.mp he, hes⟩
    · rintro ⟨hlength, hes⟩
      cases es with
      | nil => exact absurd hlength (by simp)
      | cons e es =>
        exact ⟨e, List.mk_mem_zipIdx_iff_getElem?.mpr hes.1, es, ⟨Nat.succ.inj hlength, hes.2⟩, rfl⟩

/-- Every path is written down once: two entries differ in their places. -/
theorem nodup_paths (p : Position) (depth : Nat) : (p.paths depth).Nodup := by
  induction depth generalizing p with
  | zero => exact List.nodup_singleton _
  | succ depth ih =>
    have hentries : p.legalMoves.zipIdx.Nodup :=
      (List.nodup_zipIdx_map_snd p.legalMoves).of_map
    refine List.nodup_flatMap.mpr ⟨fun e _ => (ih _).map List.cons_injective, ?_⟩
    refine hentries.imp fun {e e'} hne es hes hes' => hne ?_
    obtain ⟨_, -, rfl⟩ := List.mem_map.mp hes
    obtain ⟨_, -, he⟩ := List.mem_map.mp hes'
    exact (List.cons.inj he).1.symm

/-- The moves of the paths, without their places, are the lines of play. -/
theorem map_moves_paths (p : Position) (depth : Nat) :
    (p.paths depth).map (List.map fun e => e.1.toMove) = p.lines depth := by
  induction depth generalizing p with
  | zero => rfl
  | succ depth ih =>
    have hentry : ∀ e : Entry, (((p.execute e.1.toMove).paths depth).map (e :: ·)).map
        (List.map fun e => e.1.toMove) =
          ((p.execute e.1.toMove).lines depth).map (e.1.toMove :: ·) := by
      intro e
      rw [← ih, List.map_map, List.map_map]
      rfl
    rw [paths, List.map_flatMap]
    simp only [hentry]
    rw [lines, ← List.flatMap_map Prod.fst fun m : MarkedMove =>
      ((p.execute m.toMove).lines depth).map (m.toMove :: ·), List.zipIdx_map_fst]

/-- **`perft` counts the paths.** -/
theorem length_paths (p : Position) (depth : Nat) : (p.paths depth).length = p.perft depth := by
  rw [perft_eq_length_lines, ← map_moves_paths, List.length_map]

/-! ## Cutting paths -/

/-- A path of `a + b` entries is one of `a` and from where it leads one of `b`. -/
theorem paths_add (p : Position) (a b : Nat) :
    p.paths (a + b) = (p.paths a).flatMap fun es => ((p.follow es).paths b).map (es ++ ·) := by
  induction a generalizing p with
  | zero =>
    rw [Nat.zero_add, paths, List.flatMap_singleton]
    exact (List.map_id _).symm
  | succ a ih =>
    rw [Nat.succ_add, paths, paths, List.flatMap_assoc]
    refine congrArg (List.flatMap · _) (funext fun e => ?_)
    rw [ih, List.map_flatMap, List.flatMap_map]
    refine congrArg (List.flatMap · _) (funext fun es => ?_)
    rw [List.map_map]
    rfl

theorem perft_add (p : Position) (a b : Nat) :
    p.perft (a + b) = ((p.paths a).map fun es => (p.follow es).perft b).sum := by
  rw [← length_paths, paths_add, List.length_flatMap]
  simp only [List.length_map, length_paths]

/-- The paths that begin with an entry are those of the child below it. -/
theorem countP_head_paths (he : p.legalMoves[e.2]? = some e.1) (depth : Nat) :
    (p.paths (depth + 1)).countP (fun es => es.head? = some e) =
      (p.execute e.1.toMove).perft depth := by
  have hperm : ((p.paths (depth + 1)).filter fun es => es.head? = some e).Perm
      (((p.execute e.1.toMove).paths depth).map (e :: ·)) := by
    refine (List.perm_ext_iff_of_nodup ((nodup_paths p _).filter _)
      ((nodup_paths _ depth).map List.cons_injective)).mpr fun es => ?_
    simp only [List.mem_filter, mem_paths_iff, List.mem_map, decide_eq_true_eq]
    constructor
    · rintro ⟨⟨hlength, hes⟩, hhead⟩
      obtain ⟨es, rfl⟩ := List.head?_eq_some_iff.mp hhead
      exact ⟨es, ⟨Nat.succ.inj hlength, hes.2⟩, rfl⟩
    · rintro ⟨es, ⟨hlength, hes⟩, rfl⟩
      exact ⟨⟨congrArg Nat.succ hlength, he, hes⟩, rfl⟩
  rw [List.countP_eq_length_filter, hperm.length_eq, List.length_map, length_paths]

/-- **`perft` counts the paths in the tree of legal moves**, at every depth, for every store. The
paths of `a + b` entries are counted by where their first `a` entries lead. The counts by first move
name the legal moves in order, each with the count of its child, and that is how many paths begin
with this entry of the list. -/
theorem perft_counts_paths (p : Position) (depth : Nat) :
    ((p.paths depth).Nodup ∧ ∀ es, es ∈ p.paths depth ↔ es.length = depth ∧ p.IsPath es) ∧
      p.perft depth = (p.paths depth).length ∧
      (∀ b, p.perft (depth + b) = ((p.paths depth).map fun es => (p.follow es).perft b).sum) ∧
      p.perftByMove (depth + 1) =
        p.legalMoves.map (fun m => (m, (p.execute m.toMove).perft depth)) ∧
      ∀ e : Entry, p.legalMoves[e.2]? = some e.1 →
        (p.execute e.1.toMove).perft depth =
          (p.paths (depth + 1)).countP fun es => es.head? = some e :=
  ⟨⟨nodup_paths p depth, fun _ => mem_paths_iff⟩, (length_paths p depth).symm, perft_add p depth,
    rfl, fun _ he => (countP_head_paths he depth).symm⟩

/-- A general next to the other one takes it by a step and by a flight: the capture is listed twice,
and there are two paths with this move. Nothing follows a capture; each of the two steps aside has
one answer. -/
theorem perft_counts_paths_touching :
    let e₁ := Square.ofRowFile 1 4
    let e₂ := Square.ofRowFile 2 4
    let p := (empty.put e₁ ⟨.general, .ours⟩).put e₂ ⟨.general, .theirs⟩
    let m : MarkedMove := ⟨⟨e₁, e₂, none⟩, true⟩
    let aside : MarkedMove := ⟨⟨e₁, Square.ofRowFile 1 3, none⟩, false⟩
    (p.legalMoves[2]? = some m ∧ p.legalMoves[3]? = some m) ∧
      (p.paths 1).length = 4 ∧ p.perft 1 = 4 ∧
        (p.paths 1).countP (fun es => es.head? = some (m, 2)) = 1 ∧
          (p.paths 1).countP (fun es => es.head? = some (m, 3)) = 1 ∧
      p.legalMoves[0]? = some aside ∧
        (p.paths 2).length = 2 ∧ p.perft 2 = 2 ∧
          ((p.paths 1).map fun es => (p.follow es).perft 1).sum = 2 ∧
          (p.paths 2).countP (fun es => es.head? = some (aside, 0)) = 1 ∧
            (p.paths 2).countP (fun es => es.head? = some (m, 2)) = 0 := by
  intro e₁ e₂ p m aside
  have hstep : p.legalMoves[2]? = some m := by decide +kernel
  have hflight : p.legalMoves[3]? = some m := by decide +kernel
  have haside : p.legalMoves[0]? = some aside := by decide +kernel
  have hone : p.perft 1 = 4 := by decide +kernel
  have htwo : p.perft 2 = 2 := by decide +kernel
  have hanswer : (p.execute aside.toMove).perft 1 = 1 := by decide +kernel
  have hover : (p.execute m.toMove).perft 1 = 0 := by decide +kernel
  clear_value p m aside
  obtain ⟨-, hlength, hsplit, -, hhead⟩ := perft_counts_paths p 1
  obtain ⟨-, -, -, -, hfirst⟩ := perft_counts_paths p 0
  obtain ⟨-, hlength₂, -⟩ := perft_counts_paths p 2
  exact ⟨⟨hstep, hflight⟩, hlength ▸ hone, hone, (hfirst (m, 2) hstep).symm,
    (hfirst (m, 3) hflight).symm, haside, hlength₂ ▸ htwo, htwo, (hsplit 1).symm.trans htwo,
    (hhead (aside, 0) haside).symm.trans hanswer, (hhead (m, 2) hstep).symm.trans hover⟩

end Position

end Xiangqi
