import MonkeyLang.Proofs.Ast.Printing
import MonkeyLang.Proofs.Ast.Recognition
import MonkeyLang.Proofs.Ast.Spans
import MonkeyLang.Value.Printer

namespace MonkeyLang
open Grammar

theorem wellFormed_of_parseWithin {source : String} {depth : Nat} {program : Block}
    (h : parseWithin depth source = .ok program) : (Node.block program).WellFormed := by
  obtain ⟨tokens, htokens⟩ := tokenize_of_parseWithin h
  obtain ⟨body, eof, hlexemes, -, hderives⟩ := program_of_parseWithin htokens h
  obtain ⟨front, last, hstream, rfl⟩ := tokenize_ok.mp htokens
  rw [List.map_append, List.map_singleton] at hlexemes
  obtain ⟨rfl, -⟩ := List.append_inj' hlexemes rfl
  have hlawful := TokenStream.lawful_ofCursor (.ofSource source)
  rw [show TokenStream.ofCursor (.ofSource source) = _ from hstream] at hlawful
  exact Node.wellFormed_of_erase (hderives.wellFormed (List.forall_mem_map.mpr hlawful))

theorem parseWithin_of_lexes {source : String} {ls : List Lexeme} (h : Lexes source.toList ls)
    {tree : Block} (hderives : Derives (.body tree) ls) {depth : Nat} (hdepth : ls.length + 1 < depth) :
    ∃ program, parseWithin depth source = .ok program ∧ program.erase = tree := by
  obtain ⟨tokens, eof, hstream, rfl⟩ := h ⟨0, 0, 0⟩
  have heof := (TokenStream.wellEnded_ofSource source).ending eof
    (congrArg TokenStream.ending (show TokenStream.ofSource source = _ from hstream))
  refine parseWithin_of_program (tokenize_ok.mpr ⟨tokens, eof, hstream, rfl⟩) ?_ (by simpa using hdepth)
  exact ⟨tokens.map Token.lexeme, eof.lexeme, by simp, heof, hderives⟩

theorem parseWithin_of_prints {e : Expr} {text : String} (h : Prints (.expr .suffixed e) text) :
    ∃ bound, ∀ depth, bound ≤ depth → ∃ program, parseWithin depth text = .ok program ∧
      program.erase = .mk default [.expr default e] := by
  obtain ⟨ls, hderives, hspells⟩ := prints_expr h
  have hlexes := hspells.lexes fenced_nil Lexes.nil
  have hbody := Derives.statement hderives (List.forall_mem_nil _) .empty (by simp)
  simp only [List.append_nil] at hlexes hbody
  exact ⟨_, fun depth hdepth => parseWithin_of_lexes hlexes hbody hdepth⟩

/-- Printing a program that was read and reading it again gives the same program, and the text of a
function value is read as the literal that the value was made from. -/
theorem parseWithin_print {source : String} {limit : Nat} {program : Block}
    (h : parseWithin limit source = .ok program) :
    (∀ width level, ∃ bound, ∀ depth, bound ≤ depth → ∃ reread,
      parseWithin depth (program.printProgram width level) = .ok reread ∧ reread.same program = true ∧
        reread.printProgram width level = program.printProgram width level) ∧
    ∀ span params body, Node.Within (.expr (.function span params body)) (.block program) →
      ∀ nesting frame machine, ∃ closure after,
        evalWithin (nesting + 1) (.expr (.function span params body)) frame machine =
          .ok (.function closure) after ∧
        ∀ width level, ∃ bound, ∀ depth, bound ≤ depth → ∃ reread,
          parseWithin depth (closure.print width level) = .ok reread ∧
            reread.same (.mk default [.expr default (.function default params body)]) = true := by
  have hwell := wellFormed_of_parseWithin h
  constructor
  · intro width level
    obtain ⟨ls, hderives, hlexes⟩ := Block.lexes_printProgram width level hwell
    refine ⟨ls.length + 2, fun depth hdepth => ?_⟩
    obtain ⟨reread, hparse, herase⟩ := parseWithin_of_lexes hlexes hderives hdepth
    refine ⟨reread, hparse, (Block.same_iff reread program).mpr herase, ?_⟩
    rw [← Block.printProgram_erase, herase, Block.printProgram_erase]
  · intro span params body within nesting frame machine
    refine ⟨⟨machine.closures, params, body, frame⟩, _, rfl, fun width level => ?_⟩
    have hprints := Expr.prints width level (.function span params body) (hwell.within within)
    obtain ⟨bound, hbound⟩ := parseWithin_of_prints hprints
    refine ⟨bound, fun depth hdepth => ?_⟩
    obtain ⟨reread, hparse, herase⟩ := hbound depth hdepth
    exact ⟨reread, hparse, (Block.same_iff _ _).mpr herase⟩

theorem parseWithin_print_negation :
    ∃ program, parseWithin 9 "let f = fn(x) \x7b -x \x7d" = .ok program ∧
      ∃ bound, ∀ depth, bound ≤ depth → ∃ reread,
        parseWithin depth "let f = fn(x) \x7b\n  (-x);\n\x7d;" = .ok reread ∧
          reread.same program = true := by
  have hparse : parseWithin 9 "let f = fn(x) \x7b -x \x7d" = .ok (.mk ⟨0, 0, 3⟩
      [.bind ⟨0, 0, 3⟩ ⟨⟨0, 4, 5⟩, "f"⟩ (.function ⟨0, 8, 10⟩ [⟨⟨0, 11, 12⟩, "x"⟩]
        (.mk ⟨0, 16, 17⟩ [.expr ⟨0, 16, 17⟩ (.unary ⟨0, 16, 17⟩ .neg (.name ⟨⟨0, 17, 18⟩, "x"⟩))]))]) := by
    cbv
  obtain ⟨bound, hbound⟩ := (parseWithin_print hparse).1 2 0
  refine ⟨_, hparse, bound, fun depth hdepth => ?_⟩
  obtain ⟨reread, hreread, hsame, -⟩ := hbound depth hdepth
  exact ⟨reread, hreread, hsame⟩

end MonkeyLang
