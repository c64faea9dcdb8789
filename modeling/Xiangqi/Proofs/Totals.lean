import Xiangqi.Proofs.Replay

/-!
# Totals and their parts

The command prints how many lines of play there are, and on request also how many begin with each
first move. The parts are counted one by one and then added up, so they have to come to the count
that is printed without them. From depth one on they do. At depth zero there is one line, without
moves, and no part has it: then the parts come to zero.

* `total_perftByMove`: what the counts by first move come to.
* `run_divide`: what the command prints with the counts by first move and without.
* `run_divide_zero`: the two totals at depth zero.
-/

namespace Xiangqi

namespace Position

/-- The counts by first move come to the count, except that at depth zero there is none. -/
theorem total_perftByMove (p : Position) (depth : Nat) :
    Perft.total ((p.perftByMove depth).map Prod.snd) = if depth = 0 then 0 else p.perft depth := by
  cases depth with
  | zero => rfl
  | succ depth =>
    rw [if_neg (Nat.succ_ne_zero depth), perft_succ, perftByMove, List.map_map]
    rfl

end Position

namespace Command

open Position

variable {p : Position} {options : Options}

/-- What the command prints with the counts by first move. -/
theorem run_of_divide (h : root options = .ok p) :
    run { options with divide := true } =
      ⟨0, unlines ((if options.display then displayLines p else []) ++
        (divideLines p (p.perftByMove options.depth) ++
          [totalLine options.depth (if options.depth = 0 then 0 else p.perft options.depth)])),
        ""⟩ := by
  rw [← total_perftByMove]
  exact run_of_root h

/-- **From depth one on the total is that of the parts.** The command prints the count of the
position it reaches; with the counts by first move, these come before it, one for each legal move,
and add up to it. At depth zero the two totals differ. -/
theorem run_divide (h : root options = .ok p) :
    let shown := if options.display then displayLines p else []
    run { options with divide := false } =
        ⟨0, unlines (shown ++ [totalLine options.depth (p.perft options.depth)]), ""⟩ ∧
      (∀ n, options.depth = n + 1 →
        let counts := p.legalMoves.map fun m => (m, (p.execute m.toMove).perft n)
        run { options with divide := true } =
            ⟨0, unlines (shown ++ (divideLines p counts ++
              [totalLine options.depth (p.perft options.depth)])), ""⟩ ∧
          (counts.map Prod.snd).sum = p.perft options.depth) ∧
      (options.depth = 0 →
        run { options with divide := true } = ⟨0, unlines (shown ++ [totalLine 0 0]), ""⟩ ∧
          run { options with divide := false } = ⟨0, unlines (shown ++ [totalLine 0 1]), ""⟩) := by
  intro shown
  have hplain : run { options with divide := false } =
      ⟨0, unlines (shown ++ [totalLine options.depth (p.perft options.depth)]), ""⟩ :=
    run_of_root h
  refine ⟨hplain, fun n hn => ⟨?_, ?_⟩, fun hzero => ⟨?_, ?_⟩⟩
  · rw [run_of_divide h, hn, if_neg (Nat.succ_ne_zero n)]
    rfl
  · rw [hn, List.map_map, perft_succ]
    exact List.sum_eq_foldr
  · rw [run_of_divide h, if_pos hzero, hzero]
    rfl
  · rw [hplain, hzero]
    rfl

/-- The two steps of a general, when the other stands on the next file. -/
theorem run_divide_generals :
    let options : Options := { fen := "3k5/9/9/9/9/9/9/9/9/4K4 w", depth := 2 }
    let p := (start.setFen options.fen).1
    root options = .ok p ∧
      run { options with divide := true } = ⟨0, "e0f0: 2\ne0e1: 1\nperft(2) = 3\n", ""⟩ ∧
      run { options with divide := false } = ⟨0, "perft(2) = 3\n", ""⟩ := by
  intro options p
  have hroot : root options = .ok p := by decide +kernel
  obtain ⟨hplain, hparts, -⟩ := run_divide hroot
  obtain ⟨hparts, -⟩ := hparts 1 rfl
  rw [hplain, hparts]
  exact ⟨hroot, by decide +kernel, by decide +kernel⟩

/-- At depth zero there is one line of play, and the parts come to none. -/
theorem run_divide_zero :
    let options : Options := { depth := 0, divide := true }
    root options = .ok start ∧ start.perft options.depth = 1 ∧
      run options = ⟨0, "perft(0) = 0\n", ""⟩ ∧
        run { options with divide := false } = ⟨0, "perft(0) = 1\n", ""⟩ := by
  decide +kernel

end Command

end Xiangqi
