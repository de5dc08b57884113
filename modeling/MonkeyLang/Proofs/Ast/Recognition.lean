import Mathlib
import MonkeyLang.Ast.Equality
import MonkeyLang.Proofs.Ast.Completeness
import MonkeyLang.Proofs.Ast.Simulation
import MonkeyLang.Proofs.Ast.Soundness

namespace MonkeyLang
open Grammar

theorem program_of_parseWithin {source : String} {tokens : List Token}
    (h : tokenize source = .ok tokens) {depth : Nat} {program : Block}
    (hparse : parseWithin depth source = .ok program) :
    Program program.erase (tokens.map Token.lexeme) := by
  obtain ⟨body, eof, rfl, hstream, heof, hbody⟩ := ofSource_of_tokenize h
  rw [parseWithin, hstream] at hparse
  exact Parser.program_of_parseStream heof hbody hparse

theorem parseWithin_of_program {source : String} {tokens : List Token}
    (h : tokenize source = .ok tokens) {tree : Block} (hprogram : Program tree (tokens.map Token.lexeme))
    {depth : Nat} (hdepth : tokens.length < depth) :
    ∃ program, parseWithin depth source = .ok program ∧ program.erase = tree := by
  obtain ⟨body, eof, rfl, hstream, heof, -⟩ := ofSource_of_tokenize h
  rw [parseWithin, hstream]
  exact Parser.parseStream_of_program heof hprogram (by simp at hdepth; omega)

theorem Grammar.Program.unique {tree other : Block} {lexemes : List Lexeme}
    (h : Program tree lexemes) (h' : Program other lexemes) : tree = other := by
  obtain ⟨body, eof, rfl, heof, -⟩ := id h
  rw [← map_lexeme_token (body ++ [eof]), List.map_append, List.map_singleton] at h h'
  obtain ⟨program, hparse, rfl⟩ := Parser.parseStream_of_program heof h (Nat.le_refl _)
  obtain ⟨program', hparse', rfl⟩ := Parser.parseStream_of_program heof h' (Nat.le_refl _)
  obtain rfl := Except.ok.inj (hparse.symm.trans hparse')
  rfl

/-- A source is read as a tree, whatever the spans, just when its tokens spell the tree. -/
theorem parseWithin_iff_program {source : String} {tokens : List Token}
    (h : tokenize source = .ok tokens) (tree : Block) :
    ((∃ depth program, parseWithin depth source = .ok program ∧ program.same tree = true) ↔
      Program tree.erase (tokens.map Token.lexeme)) ∧
    ∀ depth, (∃ found, parseWithin depth source = .error (.nestingTooDeep found)) ∧ depth ≤ tokens.length ∨
      ((∃ program, parseWithin depth source = .ok program ∧ program.same tree = true) ↔
        Program tree.erase (tokens.map Token.lexeme)) := by
  have hsound : ∀ depth, (∃ program, parseWithin depth source = .ok program ∧
      program.same tree = true) → Program tree.erase (tokens.map Token.lexeme) := by
    rintro depth ⟨program, hparse, hsame⟩
    rw [Block.same_iff] at hsame
    exact hsame ▸ program_of_parseWithin h hparse
  have hcomplete : Program tree.erase (tokens.map Token.lexeme) → ∀ depth, tokens.length < depth →
      ∃ program, parseWithin depth source = .ok program ∧ program.same tree = true := by
    intro hprogram depth hdepth
    obtain ⟨program, hparse, herase⟩ := parseWithin_of_program h hprogram hdepth
    exact ⟨program, hparse, (Block.same_iff program tree).mpr herase⟩
  constructor
  · exact ⟨fun ⟨depth, hread⟩ => hsound depth hread,
      fun hprogram => ⟨_, hcomplete hprogram _ (Nat.lt_succ_self _)⟩⟩
  · intro depth
    by_cases hprogram : Program tree.erase (tokens.map Token.lexeme)
    · rcases Nat.lt_or_ge tokens.length depth with hdepth | hdepth
      · exact .inr ⟨hsound depth, fun _ => hcomplete hprogram depth hdepth⟩
      -- Below that, the parser still does what it does with enough nesting, or meets the limit.
      obtain ⟨program, hparse, hsame⟩ := hcomplete hprogram _ (Nat.lt_succ_self _)
      rcases parseWithin_deepens (Nat.le_succ_of_le hdepth) source with hlimit | hequal
      · exact .inl ⟨hlimit, hdepth⟩
      · exact .inr ⟨hsound depth, fun _ => ⟨program, hequal.trans hparse, hsame⟩⟩
    · exact .inr ⟨hsound depth, fun h => absurd h hprogram⟩

theorem program_difference :
    tokenize "a -b" = .ok [⟨.identifier, "a", ⟨0, 0, 1⟩⟩, ⟨.minus, "-", ⟨0, 2, 3⟩⟩,
      ⟨.identifier, "b", ⟨0, 3, 4⟩⟩, ⟨.eof, "", ⟨0, 4, 4⟩⟩] ∧
    Program (.mk default [.expr default (.binary default .sub (.name ⟨default, "a"⟩)
        (.name ⟨default, "b"⟩))])
      [⟨.identifier, "a"⟩, ⟨.minus, "-"⟩, ⟨.identifier, "b"⟩, ⟨.eof, ""⟩] := by
  have htokens : tokenize "a -b" = .ok [⟨.identifier, "a", ⟨0, 0, 1⟩⟩, ⟨.minus, "-", ⟨0, 2, 3⟩⟩,
      ⟨.identifier, "b", ⟨0, 3, 4⟩⟩, ⟨.eof, "", ⟨0, 4, 4⟩⟩] := by
    cbv
  refine ⟨htokens, (parseWithin_iff_program htokens (.mk default [.expr default (.binary default .sub
    (.name ⟨default, "a"⟩) (.name ⟨default, "b"⟩))])).1.mp ⟨3, .mk ⟨0, 0, 1⟩ [.expr ⟨0, 0, 1⟩
      (.binary ⟨0, 2, 3⟩ .sub (.name ⟨⟨0, 0, 1⟩, "a"⟩) (.name ⟨⟨0, 3, 4⟩, "b"⟩))], ?_, ?_⟩⟩
  · cbv
  · cbv

end MonkeyLang
