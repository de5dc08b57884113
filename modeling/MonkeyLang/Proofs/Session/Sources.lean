import MonkeyLang.Proofs.Ast.Placement
import MonkeyLang.Proofs.Eval.Bodies
import MonkeyLang.Proofs.Session.Active
import MonkeyLang.Proofs.Session.Failures
import MonkeyLang.Proofs.Text.Excerpts

namespace MonkeyLang
open Value

namespace Node

def ReadFrom (source : String) (node : Node) : Prop :=
  ∃ program, parse source = .ok program ∧ Within node (.block program)

/-- The node was read from one of the texts. -/
def Stems (sources : List String) (node : Node) : Prop :=
  ∃ source ∈ sources, node.ReadFrom source

theorem within_child {root node child : Node} (h : Within node root) (mem : child ∈ node.children) :
    Within child root := by
  induction h with
  | root => exact .child mem .root
  | child mem' _ ih => exact .child mem' ih

theorem hereditary_stems (sources : List String) : Hereditary (Stems sources) := by
  rintro root child ⟨source, hsource, program, hparse, within⟩ mem
  exact ⟨source, hsource, program, hparse, within_child within mem⟩

theorem Stems.mono {sources sources' : List String} {node : Node} (h : node.Stems sources)
    (hle : sources ⊆ sources') : node.Stems sources' := by
  obtain ⟨source, mem, hread⟩ := h
  exact ⟨source, hle mem, hread⟩

theorem stems_of_parse {source : String} {program : Block} (h : parse source = .ok program)
    (sources : List String) : (Node.block program).Stems (source :: sources) :=
  ⟨source, List.mem_cons_self, program, h, .root⟩

theorem ReadFrom.parenthesis {source : String} {site : Span} {callee : Expr} {args : List Expr}
    (h : (Node.expr (.call site callee args)).ReadFrom source) :
    ∃ content, (Text.lines source)[site.line]? = some content ∧ content.toList[site.start]? = some '(' := by
  obtain ⟨program, hparse, within⟩ := h
  obtain ⟨tokens, htokens⟩ := tokenize_of_parseWithin hparse
  rcases (written_of_parseWithin htokens hparse).within within with heq | ⟨front, own, behind, rfl, hown, -⟩
  · cases heq
  obtain ⟨token, mem, hspan, hspelt⟩ := hown.located fun token mem =>
    lawful_of_tokenize htokens token (by simp [mem])
  obtain ⟨passed, letters, rest, hsource, hnewline, hspelled, halong⟩ :=
    (placed_of_tokenize htokens).located token (by simp [mem])
  obtain rfl : letters = ['('] := by
    rw [show token.lexeme = ⟨.leftParen, "("⟩ from hspelt] at hspelled
    exact hspelled
  obtain ⟨content, hline, -, hcolumns⟩ := exists_line_along hsource hnewline
  replace hspan : site = .along passed ['('] := hspan.symm.trans halong
  rw [← hspan] at hline hcolumns
  refine ⟨content, hline, ?_⟩
  have hstop : site.start < site.stop := by
    simp [hspan]
  have hhead := congrArg (·[0]?) hcolumns
  simpa [List.getElem?_drop, List.getElem?_take, hstop] using hhead

end Node

theorem Part.child_entries (span : Span) (before behind : List (Expr × Expr)) :
    ∀ part ∈ entries before, Node.expr part.1 ∈ (Node.expr (.hash span (before ++ behind))).children := by
  intro part mem
  obtain ⟨⟨k, v⟩, hpair, hpart⟩ := List.mem_flatMap.mp mem
  refine List.mem_flatMap.mpr ⟨(k, v), List.mem_append_left behind hpair, ?_⟩
  rcases List.mem_pair.mp hpart with rfl | rfl <;> simp [key, operand]

namespace Layer

theorem child (layer : Layer) (e : Expr) : Node.expr e ∈ (Node.expr (layer.fill e)).children := by
  cases layer <;> simp [fill, Node.children]

theorem child_front (layer : Layer) (e : Expr) :
    ∀ part ∈ layer.front, Node.expr part.1 ∈ (Node.expr (layer.fill e)).children := by
  cases layer with
  | operand | left | indexed => exact fun _ mem => nomatch mem
  | right | index => simp [front, fill, Node.children, Part.operand]
  | element | argument => simp +contextual [front, fill, Node.children, Part.operand]
  | key span before other behind => exact Part.child_entries span before ((e, other) :: behind)
  | value span before other behind =>
    intro part mem
    rcases List.mem_append.mp mem with mem | mem
    · exact Part.child_entries span before ((other, e) :: behind) part mem
    · simp [List.mem_singleton.mp mem, fill, Node.children, Part.key]

end Layer

theorem Stmt.child_subject (s : Stmt) : Node.expr s.subject ∈ (Node.stmt s).children := by
  cases s <;> simp [subject, Node.children]

theorem Block.child {block : Block} {s : Stmt} (mem : s ∈ block.statements) :
    Node.stmt s ∈ (Node.block block).children := by
  cases block
  exact List.mem_map_of_mem mem

namespace Evaluation
open Eval

variable {good : Node → Prop} {x y : Evaluation} {calls : List Call}

structure Confined (good : Node → Prop) (x : Evaluation) : Prop where
  node : good x.node
  machine : x.machine.Every (Bodied good)

section Confining

variable (hgood : Node.Hereditary good)
include hgood

theorem every_of_passed {depth : Nat} {frame : FrameId} {parts : List Part} {m last : Machine}
    (h : Passed (evalWithin depth) frame parts m last) (hparts : ∀ part ∈ parts, good (.expr part.1))
    (hm : m.Every (Bodied good)) : last.Every (Bodied good) := by
  induction h with
  | nil => exact hm
  | cons he _ _ ih =>
    obtain ⟨hpart, hrest⟩ := List.forall_mem_cons.mp hparts
    exact ih hrest ((retains_evalWithin hgood depth _ frame hpart).of_ok hm he).1

theorem every_of_ran {depth : Nat} {frame : FrameId} {ss : List Stmt} {m last : Machine}
    (h : Ran (evalWithin depth) frame ss m last) (hss : ∀ s ∈ ss, good (.stmt s))
    (hm : m.Every (Bodied good)) : last.Every (Bodied good) := by
  obtain ⟨value, hstatements, -⟩ := h
  exact ((retains_statements (retains_evalWithin hgood depth) (every_null spares_bodied) hss).of_ok hm
    hstatements).1

theorem Begins.confined (h : Begins x calls y) (hx : x.Confined good) : y.Confined good := by
  obtain ⟨hnode, hm⟩ := hx
  cases h with
  | part layer e hfront =>
    have hparts := fun part mem => hgood _ _ hnode (layer.child_front e part mem)
    exact ⟨hgood _ _ hnode (layer.child e), every_of_passed hgood hfront hparts hm⟩
  | callee => exact ⟨hgood _ _ hnode List.mem_cons_self, hm⟩
  | @body depth site callee args frame inner m ready last bound closure values hcallee hvalues hprepare =>
    -- The body is not below the call: it comes out of the machine, with the function that is called.
    have hrec := retains_evalWithin hgood depth
    obtain ⟨hready, hclosure⟩ := (hrec _ frame (hgood _ _ hnode List.mem_cons_self)).of_ok hm hcallee
    have hargs : ∀ e ∈ args, good (.expr e) := fun e mem =>
      hgood _ _ hnode (List.mem_cons_of_mem _ (List.mem_map_of_mem mem))
    obtain ⟨hlast, hbodies⟩ := (retains_arguments hrec hargs).of_ok hready hvalues
    obtain ⟨hbound, -⟩ := (retains_prepare closure (hbodies values rfl)).of_ok hlast hprepare
    exact ⟨hclosure.whole closure rfl, hbound⟩
  | subject depth s => exact ⟨hgood _ _ hnode s.child_subject, hm⟩
  | @statement depth frame m ready span before s behind hbefore =>
    have hstmts : ∀ t ∈ before ++ s :: behind, good (.stmt t) := fun t mem =>
      hgood _ _ hnode (List.mem_map_of_mem mem)
    exact ⟨hstmts s (by simp), every_of_ran hgood hbefore (fun t mem => hstmts t (by simp [mem])) hm⟩
  | @branch depth frame m ready last span condition consequence alternative value block before behind s
      hcondition _ hblock hstatements hbefore =>
    have hready := ((retains_evalWithin hgood depth _ frame (hgood _ _ hnode List.mem_cons_self)).of_ok hm
      hcondition).1
    have hbody : good (.block block) := by
      refine hgood _ _ hnode ?_
      split at hblock
      all_goals
        cases hblock
        simp [Node.children]
    have hstmts : ∀ t ∈ block.statements, good (.stmt t) := fun t mem => hgood _ _ hbody (Block.child mem)
    rw [hstatements] at hstmts
    exact ⟨hstmts s (by simp), every_of_ran hgood hbefore (fun t mem => hstmts t (by simp [mem])) hready⟩

theorem Active.confined (h : Active x calls y) (hx : x.Confined good) : y.Confined good := by
  induction h with
  | here => exact hx
  | inside hbegins _ ih => exact ih (hbegins.confined hgood hx)

end Confining

end Evaluation

theorem Machine.Every.mono {P Q : Value → Prop} {m : Machine} (h : m.Every P) (hle : ∀ value, P value → Q value) :
    m.Every Q :=
  fun i frame hframe binding mem part occurs => hle part (h i frame hframe binding mem part occurs)

namespace Session

variable {session : Session} {sources : List String}

/-- The session has run the scripts, the last one first. Between them the host may have called values with
others, whose functions were written in the scripts that had run by then. -/
inductive Heard : List String → Session → Prop where
  | start (persistent : Bool) : Heard [] (start persistent)
  | run {sources : List String} {session : Session} (source : String) : Heard sources session →
      Heard (source :: sources) (session.run source).2
  | call {sources : List String} {session : Session} {callee : Value} {arguments : List Value} :
      Heard sources session → callee.Every (Bodied (Node.Stems sources)) →
      (∀ argument ∈ arguments, argument.Every (Bodied (Node.Stems sources))) →
      Heard sources (session.call callee arguments).2

theorem bodies_mono {m : Machine} (h : m.Every (Bodied (Node.Stems sources))) (source : String) :
    m.Every (Bodied (Node.Stems (source :: sources))) :=
  h.mono fun _ hvalue closure hclosure => (hvalue closure hclosure).mono (List.subset_cons_self source sources)

theorem Heard.bodies (h : Heard sources session) : session.machine.Every (Bodied (Node.Stems sources)) := by
  induction h with
  | start persistent => exact every_reset spares_bodied (Machine.every_empty _)
  | @run sources session source _ ih =>
    have hmore := bodies_mono ih source
    refine every_run spares_bodied hmore fun program hparse => ?_
    have hretains := retains_evaluate (Node.hereditary_stems _) (Node.stems_of_parse hparse sources)
    exact (hretains _).after (every_opened spares_bodied hmore source)
  | @call sources session callee arguments _ hcallee harguments ih =>
    have hrec := retains_evalWithin (Node.hereditary_stems sources) evaluationLimit
    exact every_call ((Eval.retains_call hrec hcallee harguments none).after ih)

theorem Heard.stems (h : Heard sources session) {source : String} {callee : Value} {site : Option Span}
    {calls : List Call} (hrun : (session.run source).1 = .error (.fault (.notCallable callee site calls))) :
    ∃ program entered x span, parse source = .ok program ∧
      Evaluation.Active ⟨evaluationLimit, .block program, (session.opened source).scope,
        (session.opened source).machine⟩ entered x ∧
      Evaluation.Refuses callee span x ∧ site = some span ∧ x.node.Stems (source :: sources) := by
  rw [run_eq] at hrun
  cases hparse : parse source with
  | error error =>
    rw [hparse] at hrun
    cases hrun
  | ok program =>
    rw [hparse] at hrun
    obtain ⟨fault, last, hevaluate, hfault⟩ := runProgram_error hrun
    cases hfault
    obtain ⟨entered, x, span, hactive, hrefuses, hsite, -⟩ := Evaluation.active_of_fault
      ⟨evaluationLimit, .block program, _, _⟩ (evalWithin_of_evaluate hevaluate)
    have hbodies := every_opened spares_bodied (bodies_mono h.bodies source) source
    have hconfined := hactive.confined (Node.hereditary_stems _) ⟨Node.stems_of_parse hparse sources, hbodies⟩
    exact ⟨program, entered, x, span, rfl, hactive, hrefuses, hsite, hconfined.node⟩

end Session

open Evaluation in
/-- If a script calls what cannot be called, then the call that fails was written in this script or in an
earlier one, and what is reported is the place of its opening parenthesis in the text it was written in. The
excerpt shows the line there if the script that runs has the same line under this number, as it does when the
call was written in it. -/
theorem run_fault_excerpt {session : Session} {sources : List String} (h : session.Heard sources)
    {source : String} (hbreaks : ∀ c ∈ source.toList, Text.isRowBreak c = true → c = '\n')
    {callee : Value} {site : Option Span} {calls : List Call}
    (hrun : (session.run source).1 = .error (.fault (.notCallable callee site calls))) :
    ∃ program entered x span line column,
      parse source = .ok program ∧
      Active ⟨evaluationLimit, .block program, (session.opened source).scope,
        (session.opened source).machine⟩ entered x ∧ Refuses callee span x ∧
      (ScriptError.fault (.notCallable callee site calls)).report source =
        ⟨"EvaluationFault: " ++ (Fault.notCallable callee site calls).message ++
          s!"\n(line {line}, col {column})\n" ++ ScriptError.excerpt source ⟨line, column⟩ ++
          (Fault.notCallable callee site calls).trace, some ⟨line, column⟩⟩ ∧
      x.node.Stems (source :: sources) ∧
      ∀ written, x.node.ReadFrom written → ∃ content,
        1 ≤ line ∧ (Text.lines written)[line - 1]? = some content ∧
        1 ≤ column ∧ content.toList[column - 1]? = some '(' ∧
        (Text.Shows (ScriptError.excerpt source ⟨line, column⟩) line column content ↔
          (Text.lines source)[line - 1]? = some content) := by
  obtain ⟨program, entered, x, span, hparse, hactive, hrefuses, rfl, hstems⟩ := h.stems hrun
  refine ⟨program, entered, x, span, span.line + 1, span.start + 1, hparse, hactive, hrefuses, ?_, hstems, ?_⟩
  · rw [Fault.report_eq]
    simp [ScriptError.heading, Fault.place, Fault.span?, Span.location, String.append_assoc]
  intro written hread
  cases hrefuses with
  | mk args =>
    obtain ⟨content, hline, hparenthesis⟩ := hread.parenthesis
    refine ⟨content, Nat.le_add_left _ _, hline, Nat.le_add_left _ _, hparenthesis, ?_⟩
    have hne : content ≠ "" := by
      rintro rfl
      cases hparenthesis
    exact (Text.shows_excerpt_iff (Nat.le_add_left _ _) (Nat.le_add_left _ _) 2).trans
      (Text.getElem?_rows_iff hbreaks hne)

theorem run_fault_excerpt_integer :
    let first := "let f = fn() \x7b 5() \x7d"
    let second := "1;\n2()"
    let session := ((Session.start true).run first).2
    (∃ calls, (session.run second).1 =
      .error (.fault (.notCallable (.integer 2) (some ⟨1, 1, 2⟩) calls))) ∧
    Text.Shows (ScriptError.excerpt second ⟨2, 2⟩) 2 2 "2()" := by
  intro first second session
  let program : Block := .mk ⟨0, 0, 1⟩ [.expr ⟨0, 0, 1⟩ (.integer ⟨0, 0, 1⟩ 1),
    .expr ⟨1, 0, 1⟩ (.call ⟨1, 1, 2⟩ (.integer ⟨1, 0, 1⟩ 2) [])]
  have hparse : parse second = .ok program := by
    cbv
  have hrun : (session.run second).1 = .error (.fault (.notCallable (.integer 2) (some ⟨1, 1, 2⟩)
      (session.opened second).machine.calls.reverse)) :=
    Session.run_of_shallow hparse (show 4 ≤ evaluationLimit by decide) (by simp) rfl
  have hbreaks : ∀ c ∈ second.toList, Text.isRowBreak c = true → c = '\n' := by
    simp [second, Text.isRowBreak]
  obtain ⟨_, _, x, _, line, column, -, -, -, hreport, ⟨written, mem, hread⟩, hwritten⟩ :=
    run_fault_excerpt (.run first (.start true)) hbreaks hrun
  have hplace : some (Location.mk 2 2) = some ⟨line, column⟩ := congrArg Report.location hreport
  cases hplace
  obtain ⟨content, -, hline, -, -, hshows⟩ := hwritten written hread
  rcases List.mem_pair.mp mem with rfl | rfl
  · have hcontent : (Text.lines second)[1]? = some "2()" := by
      decide
    cases hcontent.symm.trans hline
    exact ⟨⟨_, hrun⟩, hshows.mpr hcontent⟩
  · have hnone : (Text.lines first)[1]? = none := by
      decide
    cases hnone.symm.trans hline

/-- The call is in the script that ran before, and the excerpt shows the one that runs. -/
theorem run_fault_excerpt_earlier :
    let first := "let f = fn() \x7b 5() \x7d"
    let second := "f(); 1 + 2 + 3 + 4 + 5"
    let session := ((Session.start true).run first).2
    let fault : Fault := .notCallable (.integer 5) (some ⟨0, 16, 17⟩) [⟨"<fn>", []⟩]
    (∀ c ∈ first.toList ++ second.toList, Text.isRowBreak c = false) ∧
    (session.run second).1 = .error (.fault fault) ∧
    ((ScriptError.fault fault).report second).location = some ⟨1, 17⟩ ∧
    (∃ program entered x, parse second = .ok program ∧
      Evaluation.Active ⟨evaluationLimit, .block program, (session.opened second).scope,
        (session.opened second).machine⟩ entered x ∧
      Evaluation.Refuses (.integer 5) ⟨0, 16, 17⟩ x ∧ x.node.ReadFrom first ∧ ¬ x.node.ReadFrom second) ∧
    ¬ Text.Shows (ScriptError.excerpt second ⟨1, 17⟩) 1 17 first := by
  intro first second session fault
  let definition : Block := .mk ⟨0, 0, 3⟩ [.bind ⟨0, 0, 3⟩ ⟨⟨0, 4, 5⟩, "f"⟩ (.function ⟨0, 8, 10⟩ []
    (.mk ⟨0, 15, 16⟩ [.expr ⟨0, 15, 16⟩ (.call ⟨0, 16, 17⟩ (.integer ⟨0, 15, 16⟩ 5) [])]))]
  have hfirst : parse first = .ok definition := by
    cbv
  let program : Block := .mk ⟨0, 0, 1⟩ [.expr ⟨0, 0, 1⟩ (.call ⟨0, 1, 2⟩ (.name ⟨⟨0, 0, 1⟩, "f"⟩) []),
    .expr ⟨0, 5, 6⟩ (.binary ⟨0, 19, 20⟩ .add (.binary ⟨0, 15, 16⟩ .add (.binary ⟨0, 11, 12⟩ .add
      (.binary ⟨0, 7, 8⟩ .add (.integer ⟨0, 5, 6⟩ 1) (.integer ⟨0, 9, 10⟩ 2)) (.integer ⟨0, 13, 14⟩ 3))
      (.integer ⟨0, 17, 18⟩ 4)) (.integer ⟨0, 21, 22⟩ 5))]
  have hparse : parse second = .ok program := by
    cbv
  -- Both programs are evaluated with as much nesting as they need.
  let opened := (Session.start true).opened first
  let defined : Session :=
    { opened with machine := opened.machine.after (evalWithin 3 (.block definition) opened.scope) }
  have hsession : session = defined := by
    obtain ⟨value, last, hdefine⟩ : ∃ value last,
        evalWithin 3 (.block definition) opened.scope opened.machine = .ok value last := ⟨_, _, rfl⟩
    have hlimit := evalWithin_ok_of_le (show 3 ≤ evaluationLimit by decide) hdefine
    show ((Session.start true).run first).2 = { opened with machine := opened.machine.after _ }
    rw [Session.run_of_parse hfirst, Session.runProgram, evaluate, bind_of_ok hlimit, Machine.after, hdefine]
    rfl
  have hrun : (session.run second).1 = .error (.fault fault) := by
    rw [hsession]
    refine Session.run_of_shallow hparse (show 7 ≤ evaluationLimit by decide) (by simp [fault]) ?_
    cbv
  have hheard : session.Heard [first] := .run first (.start true)
  obtain ⟨program, entered, x, span, hprogram, hactive, hrefuses, hsite, written, mem, hread⟩ := hheard.stems hrun
  cases hsite
  have hunread : ¬ x.node.ReadFrom second := by
    intro hread
    cases hrefuses with
    | mk args =>
      obtain ⟨content, hline, hparenthesis⟩ := hread.parenthesis
      have hcontent : (Text.lines second)[0]? = some second := by
        decide
      cases hcontent.symm.trans hline
      exact absurd hparenthesis (by decide)
  have hfirst : x.node.ReadFrom first := by
    rcases List.mem_pair.mp mem with rfl | rfl
    · exact absurd hread hunread
    · exact hread
  have hbreaks : ∀ c ∈ first.toList ++ second.toList, Text.isRowBreak c = false := by
    simp [first, second, Text.isRowBreak]
  refine ⟨hbreaks, hrun, rfl, ⟨program, entered, x, hprogram, hactive, hrefuses, hfirst, hunread⟩, fun h => ?_⟩
  have hrow := (Text.shows_excerpt_iff (by decide) (by decide) 2).mp h
  exact absurd hrow (by decide)

end MonkeyLang
