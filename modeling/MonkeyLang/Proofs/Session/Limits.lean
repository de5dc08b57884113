import MonkeyLang.Proofs.Ast.Simulation
import MonkeyLang.Proofs.Eval.Deepening

namespace MonkeyLang

/-- A reading that does not fail at its limit gives the same under every higher limit, and did not meet
the limit; an evaluation that does not fail at its limit ends in the same value or fault, and leaves the
same state, under every higher limit, and did not meet the limit. -/
theorem limit_only_fails (limit : Nat) :
    (∀ source, (∃ found, parseWithin limit source = .error (.nestingTooDeep found)) ∨
      (∀ higher, limit ≤ higher → parseWithin higher source = parseWithin limit source) ∧
      ∀ beyond, Parser.parseStreamOver beyond limit (.ofSource source) = parseWithin limit source) ∧
    ∀ node frame m, (∃ span last, evalWithin limit node frame m = .error (.tooDeep span) last) ∨
      (∀ higher, limit ≤ higher → evalWithin higher node frame m = evalWithin limit node frame m) ∧
      ∀ beyond, evalOver beyond limit node frame m = evalWithin limit node frame m := by
  constructor
  · intro source
    by_cases hlimit : ∃ found, parseWithin limit source = .error (.nestingTooDeep found)
    · exact .inl hlimit
    refine .inr ⟨fun higher hle => ?_, fun beyond => ?_⟩
    · exact ((parseWithin_deepens hle source).resolve_left hlimit).symm
    · exact ((Parser.parseStream_beyond beyond limit (.ofSource source)).resolve_left hlimit).symm
  · intro node frame m
    by_cases hlimit : ∃ span last, evalWithin limit node frame m = .error (.tooDeep span) last
    · exact .inl hlimit
    refine .inr ⟨fun higher hle => ?_, fun beyond => ?_⟩
    · exact ((evalWithin_deepens hle node frame m).resolve_left hlimit).symm
    · exact ((evalWithin_beyond beyond limit node frame m).resolve_left hlimit).symm

/-- A second level is met by the operand of a sign, and is enough for an integer alone. -/
example : parseWithin 2 "-1" = .error (.nestingTooDeep ⟨.integer, "1", ⟨0, 1, 2⟩⟩) ∧
    parseWithin 2 "1" = .ok (.mk ⟨0, 0, 1⟩ [.expr ⟨0, 0, 1⟩ (.integer ⟨0, 0, 1⟩ 1)]) := by
  constructor
  · cbv
  · cbv

end MonkeyLang
