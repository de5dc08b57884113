import MonkeyLang.Eval.Basic
import MonkeyLang.Proofs.Ast.Grammar

namespace MonkeyLang
open Grammar

namespace Node

def children : Node → List Node
  | .block (.mk _ statements) => statements.map .stmt
  | .stmt (.bind _ _ value) | .stmt (.ret _ value) | .stmt (.expr _ value) => [.expr value]
  | .stmt (.branch _ condition consequence alternative) =>
    .expr condition :: .block consequence :: alternative.toList.map .block
  | .expr (.unary _ _ right) => [.expr right]
  | .expr (.binary _ _ left right) => [.expr left, .expr right]
  | .expr (.function _ _ body) => [.block body]
  | .expr (.call _ callee arguments) => .expr callee :: arguments.map .expr
  | .expr (.array _ elements) => elements.map .expr
  | .expr (.index _ left index) => [.expr left, .expr index]
  | .expr (.hash _ pairs) => pairs.flatMap fun (key, value) => [.expr key, .expr value]
  | .expr (.name _) | .expr (.integer _ _) | .expr (.boolean _ _) | .expr (.string _ _) => []

/-- The node is the root or stands below it. -/
inductive Within (node : Node) : Node → Prop where
  | root : Within node node
  | child {root child : Node} : child ∈ root.children → Within node child → Within node root

/-- The names, integers and operators of the node itself can be spelled. -/
def Lawful : Node → Prop
  | .expr (.name ident) => IsName ident.name
  | .expr (.integer _ value) => value ≤ maxInteger
  | .expr (.unary _ operator _) => ∃ kind, unary? kind = some operator
  | .expr (.binary _ operator _ _) => ∃ kind stratum, binary? kind = some (stratum, operator)
  | .expr (.function _ params _) => ∀ param ∈ params, IsName param.name
  | .stmt (.bind _ name _) => IsName name.name
  | _ => True

def WellFormed (root : Node) : Prop :=
  ∀ node, Within node root → node.Lawful

theorem wellFormed_iff {root : Node} :
    root.WellFormed ↔ root.Lawful ∧ ∀ child ∈ root.children, child.WellFormed := by
  constructor
  · intro h
    exact ⟨h root .root, fun child mem node within => h node (.child mem within)⟩
  · rintro ⟨hroot, hchildren⟩ node within
    cases within with
    | root => exact hroot
    | child mem within => exact hchildren _ mem node within

theorem WellFormed.child {root child : Node} (h : root.WellFormed) (mem : child ∈ root.children) :
    child.WellFormed :=
  (wellFormed_iff.mp h).2 child mem

theorem WellFormed.lawful {root : Node} (h : root.WellFormed) : root.Lawful :=
  h root .root

theorem WellFormed.within {root node : Node} (h : root.WellFormed) (within : Within node root) :
    node.WellFormed := by
  induction within with
  | root => exact h
  | child mem _ ih => exact ih (h.child mem)

def erase : Node → Node
  | .block b => .block b.erase
  | .stmt s => .stmt s.erase
  | .expr e => .expr e.erase

theorem children_erase (node : Node) : node.erase.children = node.children.map erase := by
  rcases node with ⟨⟨_, ss⟩⟩ | s | e
  · simp [erase, Block.erase, children, Stmt.eraseAll_eq_map, Function.comp_def]
  · rcases s with _ | _ | ⟨_, _, _, _ | _⟩ | _ <;> simp [erase, Stmt.erase, children]
  · cases e <;>
      simp [erase, Expr.erase, children, Expr.eraseAll_eq_map, Expr.erasePairs_eq_map,
        Function.comp_def, List.map_flatMap, List.flatMap_map]

theorem lawful_erase {node : Node} : node.erase.Lawful ↔ node.Lawful := by
  rcases node with b | s | e
  · exact Iff.rfl
  · rcases s with _ | _ | ⟨_, _, _, _ | _⟩ | _ <;> exact Iff.rfl
  · cases e with
    | function span params body => simp [erase, Expr.erase, Lawful, Ident.erase]
    | _ => exact Iff.rfl

theorem Within.erase {node root : Node} (h : Within node root) : Within node.erase root.erase := by
  induction h with
  | root => exact .root
  | child mem _ ih =>
    refine .child ?_ ih
    rw [children_erase]
    exact List.mem_map_of_mem mem

theorem wellFormed_of_erase {root : Node} (h : root.erase.WellFormed) : root.WellFormed :=
  fun node within => lawful_erase.mp (h node.erase within.erase)

end Node

theorem Grammar.Commas.mem {items : List (List Lexeme)} {ls : List Lexeme} (h : Commas items ls) :
    ∀ item ∈ items, ∀ l ∈ item, l ∈ ls := by
  induction h with
  | none => simp
  | one item => simp
  | more _ _ ih =>
    intro item mem l hl
    rw [List.mem_append, List.mem_cons]
    rcases List.mem_cons.mp mem with rfl | mem
    · exact .inl hl
    · exact .inr (.inr (ih item mem l hl))

def Grammar.Phrase.WellFormed : Phrase → Prop
  | .expr _ e => (Node.expr e).WellFormed
  | .pair (key, value) => (Node.expr key).WellFormed ∧ (Node.expr value).WellFormed
  | .stmt s => (Node.stmt s).WellFormed
  | .body b => (Node.block b).WellFormed

theorem Grammar.Commas.of_lawful {α : Type} {items : List (α × List Lexeme)} {ls : List Lexeme}
    (h : Commas (items.map (·.2)) ls) (good : α → Prop) (hls : ∀ l ∈ ls, l.Lawful)
    (hitems : ∀ item ∈ items, (∀ l ∈ item.2, l.Lawful) → good item.1) : ∀ item ∈ items, good item.1 :=
  fun item mem => hitems item mem fun l hl => hls l (h.mem item.2 (List.mem_map_of_mem mem) l hl)

theorem Node.wellFormed_hash {span : Span} {pairs : List (Expr × Expr)}
    (h : ∀ pair ∈ pairs, (Node.expr pair.1).WellFormed ∧ (Node.expr pair.2).WellFormed) :
    (Node.expr (.hash span pairs)).WellFormed := by
  refine Node.wellFormed_iff.mpr ⟨trivial, fun child mem => ?_⟩
  obtain ⟨pair, hpair, hchild⟩ := List.mem_flatMap.mp mem
  obtain ⟨hkey, hvalue⟩ := h pair hpair
  simp only [List.mem_cons, List.not_mem_nil, or_false] at hchild
  rcases hchild with rfl | rfl
  · exact hkey
  · exact hvalue

theorem Grammar.Derives.wellFormed {phrase : Phrase} {ls : List Lexeme} (h : Derives phrase ls)
    (hls : ∀ l ∈ ls, l.Lawful) : phrase.WellFormed := by
  have hname : ∀ l : Lexeme, l.Lawful → l.kind = .identifier → IsName l.literal := by
    rintro ⟨_, literal⟩ hl rfl
    exact hl
  induction h with
  | inner _ ih => exact ih hls
  | binary hsign _ _ ihl ihr =>
    simp only [List.forall_mem_append, List.forall_mem_cons] at hls
    obtain ⟨hl, -, hr⟩ := hls
    refine Node.wellFormed_iff.mpr ⟨⟨_, _, hsign⟩, ?_⟩
    simpa [Node.children] using ⟨ihl hl, ihr hr⟩
  | unary hsign _ ih =>
    exact Node.wellFormed_iff.mpr
      ⟨⟨_, hsign⟩, List.forall_mem_singleton.mpr (ih (List.forall_mem_cons.mp hls).2)⟩
  | @call _ arguments _ _ _ _ _ _ _ _ hcommas ihc iha =>
    simp only [List.forall_mem_append, List.forall_mem_cons] at hls
    obtain ⟨⟨hl, -, has⟩, -⟩ := hls
    refine Node.wellFormed_iff.mpr ⟨trivial, List.forall_mem_cons.mpr ⟨ihc hl, ?_⟩⟩
    rw [List.map_map]
    exact List.forall_mem_map.mpr (hcommas.of_lawful (fun e => (Node.expr e).WellFormed) has iha)
  | index _ _ _ _ ihl ihi =>
    simp only [List.forall_mem_append, List.forall_mem_cons] at hls
    obtain ⟨⟨hl, -, hi⟩, -⟩ := hls
    refine Node.wellFormed_iff.mpr ⟨trivial, ?_⟩
    simpa [Node.children] using ⟨ihl hl, ihi hi⟩
  | name hkind =>
    exact Node.wellFormed_iff.mpr ⟨hname _ (hls _ (by simp)) hkind, by simp [Node.children]⟩
  | integer _ _ _ hmax => exact Node.wellFormed_iff.mpr ⟨hmax, by simp [Node.children]⟩
  | trueWord | falseWord | string => exact Node.wellFormed_iff.mpr ⟨trivial, by simp [Node.children]⟩
  | group _ _ _ ih => exact ih fun l hl => hls l (by simp [hl])
  | @function params _ _ _ _ _ _ _ _ _ _ _ _ _ hparams hcommas _ ih =>
    simp only [List.forall_mem_append, List.forall_mem_cons] at hls
    obtain ⟨⟨⟨-, -, hps⟩, -, -, hbody⟩, -⟩ := hls
    refine Node.wellFormed_iff.mpr ⟨List.forall_mem_map.mpr fun param mem => ?_, ?_⟩
    · exact hname param (hps param (hcommas.mem [param] (List.mem_map_of_mem mem) param (by simp)))
        (hparams param mem)
    · exact List.forall_mem_singleton.mpr (ih hbody)
  | array _ _ _ hcommas ih =>
    simp only [List.forall_mem_append, List.forall_mem_cons] at hls
    obtain ⟨⟨-, hes⟩, -⟩ := hls
    refine Node.wellFormed_iff.mpr ⟨trivial, ?_⟩
    rw [Node.children, List.map_map]
    exact List.forall_mem_map.mpr (hcommas.of_lawful (fun e => (Node.expr e).WellFormed) hes ih)
  | hash _ _ _ hcommas ih =>
    simp only [List.forall_mem_append, List.forall_mem_cons] at hls
    obtain ⟨⟨-, hps⟩, -⟩ := hls
    have hpairs := hcommas.of_lawful (fun pair => Phrase.WellFormed (.pair pair)) hps ih
    exact Node.wellFormed_hash (List.forall_mem_map.mpr hpairs)
  | pair _ _ _ ihk ihv =>
    simp only [List.forall_mem_append, List.forall_mem_cons] at hls
    exact ⟨ihk hls.1, ihv hls.2.2⟩
  | bind _ hkind _ _ ih =>
    simp only [List.forall_mem_cons] at hls
    obtain ⟨-, hn, -, hvalue⟩ := hls
    exact Node.wellFormed_iff.mpr ⟨hname _ hn hkind, List.forall_mem_singleton.mpr (ih hvalue)⟩
  | ret _ _ ih =>
    exact Node.wellFormed_iff.mpr
      ⟨trivial, List.forall_mem_singleton.mpr (ih (List.forall_mem_cons.mp hls).2)⟩
  | branch _ _ _ _ _ _ _ ihc ihb =>
    simp only [List.forall_mem_append, List.forall_mem_cons] at hls
    obtain ⟨⟨⟨-, -, hc⟩, -, -, hb⟩, -⟩ := hls
    refine Node.wellFormed_iff.mpr ⟨trivial, ?_⟩
    simpa [Node.children] using ⟨ihc hc, ihb hb⟩
  | branchElse _ _ _ _ _ _ _ _ _ _ _ ihc ihb iha =>
    simp only [List.forall_mem_append, List.forall_mem_cons] at hls
    obtain ⟨⟨⟨⟨-, -, hc⟩, -, -, hb⟩, -, -, -, ha⟩, -⟩ := hls
    refine Node.wellFormed_iff.mpr ⟨trivial, ?_⟩
    simpa [Node.children] using ⟨ihc hc, ihb hb, iha ha⟩
  | expr _ ih =>
    exact Node.wellFormed_iff.mpr ⟨trivial, List.forall_mem_singleton.mpr (ih hls)⟩
  | empty => exact Node.wellFormed_iff.mpr ⟨trivial, by simp [Node.children]⟩
  | statement _ _ _ _ ihs ihb =>
    simp only [List.forall_mem_append] at hls
    obtain ⟨⟨hs, -⟩, hmore⟩ := hls
    refine Node.wellFormed_iff.mpr ⟨trivial, List.forall_mem_cons.mpr ⟨ihs hs, ?_⟩⟩
    exact (Node.wellFormed_iff.mp (ihb hmore)).2

end MonkeyLang
