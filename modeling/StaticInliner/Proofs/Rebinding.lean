import StaticInliner.Proofs.Meaning.Rebinding
import StaticInliner.Proofs.Rewriting

/-!
What a body looks like once its variables are rebound. Every name that was declared by `var`
is declared by one new `let` of the block, ahead of the body or in the place of its only
declaration, and nothing up to this `let` mentions it. Each initialiser stays where it was,
and so does everything else.
-/
namespace StaticInliner

open Meaning (promote_of_mem promote_of_ne Expected Placed inPlaceNames inPlaceNames_iff
  mem_inPlaceNames mem_hoistedNames expected_iff)

/-- A statement and what stands in its place when the names `hoisted` are declared elsewhere.
A declaration of one of them becomes an assignment of its initialiser, or is gone if it has
none. A statement with others below it keeps all but these; any other that is no `var` is
kept. -/
inductive Stmt.Demoted (hoisted : List String) : Stmt → List Stmt → Prop
  | assigned {x : String} (init : Expr) : x ∈ hoisted →
    Demoted hoisted (.var .var x (some init)) [.assign x init]
  | dropped {x : String} : x ∈ hoisted → Demoted hoisted (.var .var x none) []
  | kept {s : Stmt} : s.isSimple = true → (∀ x init, s ≠ .var .var x init) → Demoted hoisted s [s]
  | inside {s : Stmt} (image : Stmt → List Stmt) : s.isSimple = false →
    (∀ body ∈ s.bodies, ∀ inner ∈ body, Demoted hoisted inner (image inner)) →
    Demoted hoisted s [s.withParts s.head? (s.bodies.map (·.flatMap image))]

/-- Statements of a body and what stands in their places behind the statements `before`. The
declarations of `names`, one of each and in this order, have become `let` where they stand,
and nothing up to there mentions the name. All others are demoted. -/
inductive Rebinds (hoisted : List String) :
    (before : List Stmt) → (names : List String) → List Stmt → List Stmt → Prop
  | nil {before : List Stmt} : Rebinds hoisted before [] [] []
  | declared {before rest rest' : List Stmt} {names : List String} {x : String}
    {init : Option Expr} :
    Node.expr (.ident x) ∉ Stmt.nodesAll .nested (before ++ [Stmt.var .letVar x init]) →
    Rebinds hoisted (before ++ [Stmt.var .letVar x init]) names rest rest' →
    Rebinds hoisted before (x :: names) (.var .var x init :: rest) (.var .letVar x init :: rest')
  | demoted {before rest rest' image : List Stmt} {names : List String} {s : Stmt} :
    s.Demoted hoisted image → Rebinds hoisted (before ++ image) names rest rest' →
    Rebinds hoisted before names (s :: rest) (image ++ rest')

namespace Stmt

variable {hoisted : List String} {s : Stmt}

/-- A declaration within a statement is the statement or in one of its bodies. -/
theorem eq_or_below_of_var {x : String} {init : Option Expr}
    (h : Node.stmt (.var .var x init) ∈ s.nodes .ownLayer) : s = .var .var x init ∨
      s.isSimple = false ∧ ∃ body ∈ s.bodies, ∃ inner ∈ body,
        Node.stmt (.var .var x init) ∈ inner.nodes .ownLayer := by
  cases hfn : s.function? with
  | some fn =>
    obtain rfl := Stmt.eq_function hfn
    cases fn
    cases List.mem_singleton.mp h
  | none =>
    rcases (Stmt.mem_nodes_iff hfn).mp h with heq | ⟨e, -, hnode⟩ | hbelow
    · cases heq
      exact .inl rfl
    · obtain ⟨_, heq⟩ := e.isExpr_of_mem_nodes _ hnode
      cases heq
    · refine .inr ⟨?_, hbelow⟩
      obtain ⟨body, hbody, -⟩ := hbelow
      cases s with
      | function _ => cases hfn
      | ifElse _ _ _ | whileDo _ _ | block _ | labeled _ _ => rfl
      | _ => cases hbody

theorem no_var_of_isSimple (hs : s.isSimple = true) (hne : ∀ x init, s ≠ .var .var x init)
    (x : String) (init : Option Expr) :
    Node.stmt (.var .var x init) ∉ s.nodes .ownLayer := by
  intro hnode
  rcases eq_or_below_of_var hnode with heq | ⟨hbodies, -⟩
  · exact hne x init heq
  · cases hs.symm.trans hbodies

theorem mem_nodes_of_mem_bodies {reach : Reach} {body : List Stmt} {inner : Stmt} {node : Node}
    (hs : s.isSimple = false) (hbody : body ∈ s.bodies) (hinner : inner ∈ body)
    (hnode : node ∈ inner.nodes reach) : node ∈ s.nodes reach :=
  (Stmt.mem_nodes_iff (Stmt.function?_compound hs)).mpr
    (.inr (.inr ⟨body, hbody, inner, hinner, hnode⟩))

/-- A statement whose variables are all declared elsewhere is demoted. -/
theorem demoted_demote
    (h : ∀ x init, Node.stmt (.var .var x init) ∈ s.nodes .ownLayer → x ∈ hoisted) :
    s.Demoted hoisted (s.demote hoisted) := by
  induction s using Stmt.byBodies with
  | statement s ih =>
    by_cases hvar : ∃ x init, s = .var .var x init
    · obtain ⟨x, init, rfl⟩ := hvar
      have hx := h x init (Stmt.self_mem_nodes _ _)
      cases init with
      | none =>
        rw [Stmt.demote, if_pos (List.contains_iff_mem.mpr hx)]
        exact .dropped hx
      | some init =>
        rw [Stmt.demote, if_pos (List.contains_iff_mem.mpr hx)]
        exact .assigned init hx
    · have hne : ∀ x init, s ≠ .var .var x init := fun x init heq => hvar ⟨x, init, heq⟩
      cases hs : s.isSimple with
      | true =>
        have hkept : s.demote hoisted = [s] := by
          unfold Stmt.demote
          split
          · exact absurd rfl (hne _ _)
          · exact absurd rfl (hne _ _)
          all_goals first | cases hs | rfl
        rw [hkept]
        exact .kept hs hne
      | false =>
        rw [(descends_demote hoisted).eq_withParts hs]
        refine .inside (·.demote hoisted) hs fun body hbody inner hinner =>
          ih body hbody inner hinner ?_
        exact fun x init hnode => h x init (mem_nodes_of_mem_bodies hs hbody hinner hnode)

/-- No `var` is left where a statement was demoted. -/
theorem Demoted.no_var {image : List Stmt} (h : s.Demoted hoisted image) (x : String)
    (init : Option Expr) : Node.stmt (.var .var x init) ∉ Stmt.nodesAll .ownLayer image := by
  induction h with
  | assigned value _ =>
    rw [Stmt.nodesAll_singleton]
    exact no_var_of_isSimple rfl (fun _ _ heq => by cases heq) x init
  | dropped _ => exact List.not_mem_nil
  | kept hs hne =>
    rw [Stmt.nodesAll_singleton]
    exact no_var_of_isSimple hs hne x init
  | @inside s image hs _ ih =>
    intro hnode
    rw [Stmt.nodesAll_singleton] at hnode
    rcases eq_or_below_of_var hnode with heq | ⟨-, body', hbody', inner', hinner', hnode⟩
    · have hsimple := s.isSimple_withParts (s.bodies.map (·.flatMap image))
      rw [heq, hs] at hsimple
      cases hsimple
    · rw [bodies_withParts hs (List.length_map _)] at hbody'
      obtain ⟨body, hbody, rfl⟩ := List.mem_map.mp hbody'
      obtain ⟨inner, hinner, hmem⟩ := List.mem_flatMap.mp hinner'
      exact ih body hbody inner hinner (Stmt.nodes_subset_nodesAll hmem hnode)

/-- Demoting adds mentions of the demoted names only. -/
theorem mentions_of_demote {x : String} (hx : x ∉ hoisted)
    (h : Node.expr (.ident x) ∈ Stmt.nodesAll .nested (s.demote hoisted)) :
    Node.expr (.ident x) ∈ s.nodes .nested := by
  have hbodywise : Bodywise fun body body' =>
      Node.expr (.ident x) ∈ Stmt.nodesAll .nested body' →
        Node.expr (.ident x) ∈ Stmt.nodesAll .nested body := by
    refine bodywise_nodes (Q := fun nodes nodes' => Node.expr (.ident x) ∈ nodes' →
      Node.expr (.ident x) ∈ nodes)
      (fun _ h => h) ?_ ?_
    · intro first first' second second' h h' hmem
      rw [List.mem_append] at hmem ⊢
      exact hmem.imp h h'
    · intro s bodies _ hmem
      cases List.mem_singleton.mp hmem
  have hall := hbodywise.demoteAll hoisted (fun _ _ hmem => absurd hmem List.not_mem_nil) ?_ [s]
  · rw [Stmt.demoteAll, Stmt.demoteAll, List.append_nil, Stmt.nodesAll_singleton] at hall
    exact hall h
  · intro name hname init hmem
    rw [Stmt.nodesAll_singleton] at hmem ⊢
    simp only [Stmt.assign, Stmt.nodes, Expr.nodes, List.singleton_append, List.mem_cons,
      reduceCtorEq, false_or, Node.expr.injEq, Expr.ident.injEq] at hmem
    rcases hmem with rfl | hmem
    · exact absurd hname hx
    · rw [Stmt.nodes]
      exact List.mem_cons_of_mem _ hmem

end Stmt

section Bodies

variable {hoisted inPlace names : List String} {before body result rest : List Stmt} {s : Stmt}
  {x : String}

theorem Rebinds.no_var (h : Rebinds hoisted before names body result) (x : String)
    (init : Option Expr) : Node.stmt (.var .var x init) ∉ Stmt.nodesAll .ownLayer result := by
  induction h with
  | nil => exact List.not_mem_nil
  | declared _ _ ih =>
    rw [Stmt.nodesAll, List.mem_append, not_or]
    exact ⟨Stmt.no_var_of_isSimple rfl (fun _ _ heq => by cases heq) x init, ih⟩
  | demoted hs _ ih =>
    rw [Stmt.nodesAll_append, List.mem_append, not_or]
    exact ⟨hs.no_var x init, ih⟩

/-- Statements that are still to be rebound behind others. Their variables are to be declared
ahead or in place, and of the latter none has been mentioned yet. -/
structure Due (hoisted inPlace : List String) (before body : List Stmt) : Prop where
  disjoint : ∀ x ∈ inPlace, x ∉ hoisted
  names : ∀ x ∈ varNames body, x ∈ hoisted ∨ x ∈ inPlace
  place : Placed inPlace body
  unmentioned : ∀ x, Expected inPlace body x → Node.expr (.ident x) ∉ Stmt.nodesAll .nested before

namespace Due

/-- The first statement has been replaced by others that mention no more names to be declared
in place. -/
theorem tail {image : List Stmt} (h : Due hoisted inPlace before (s :: rest))
    (himage : ∀ x ∈ inPlace, Node.expr (.ident x) ∈ Stmt.nodesAll .nested image →
      Node.expr (.ident x) ∈ s.nodes .nested) : Due hoisted inPlace (before ++ image) rest where
  disjoint := h.disjoint
  names x hmem := h.names x (mem_varNames_cons.mpr (.inr hmem))
  place := h.place.tail
  unmentioned x hx := by
    rw [Stmt.nodesAll_append, List.mem_append, not_or]
    exact ⟨h.unmentioned x hx.cons, fun hnode => h.place.unmentioned hx.cons (himage x hx.1 hnode)⟩

/-- The declaration of a variable in place. -/
theorem declare {init : Option Expr} (h : Due hoisted inPlace before (.var .var x init :: rest))
    (hx : x ∈ inPlace) :
    Node.expr (.ident x) ∉ Stmt.nodesAll .nested (before ++ [Stmt.var .letVar x init]) ∧
      Due hoisted inPlace (before ++ [Stmt.var .letVar x init]) rest := by
  have himage (y : String) (hnode : Node.expr (.ident y) ∈
    Stmt.nodesAll .nested [.var .letVar x init]) :
      Node.expr (.ident y) ∈ (Stmt.var .var x init).nodes .nested := by
    rw [Stmt.nodesAll_singleton] at hnode
    cases init with
    | none => simp [Stmt.nodes] at hnode
    | some e => simpa [Stmt.nodes] using hnode
  refine ⟨?_, h.tail fun y _ => himage y⟩
  rw [Stmt.nodesAll_append, List.mem_append, not_or]
  exact ⟨h.unmentioned x (.var hx), fun hnode => h.place.unmentioned (.var hx) (himage x hnode)⟩

/-- A statement that is no such declaration has none inside either, and is demoted. -/
theorem demote (h : Due hoisted inPlace before (s :: rest))
    (hs : ∀ x init, s = .var .var x init → x ∉ inPlace) :
    s.Demoted hoisted (s.demote hoisted) ∧
      Due hoisted inPlace (before ++ s.demote hoisted) rest := by
  refine ⟨Stmt.demoted_demote fun x init hnode => ?_,
    h.tail fun x hx => Stmt.mentions_of_demote (h.disjoint x hx)⟩
  have hown : x ∈ varNames [s] := by
    rw [mem_varNames, Stmt.nodesAll_singleton]
    exact ⟨init, hnode⟩
  have hmem : x ∈ varNames (s :: rest) := mem_varNames_cons.mpr (.inl hown)
  exact (h.names x hmem).resolve_right fun hx => h.place.notMem_head hs ⟨hx, hmem⟩ hown

/-- A body is rebound statement by statement. The induction is on the statements that are
still due. -/
theorem exists_rebinds (h : Due hoisted inPlace before body) :
    ∃ names : List String, names.Nodup ∧ (∀ x, x ∈ names ↔ Expected inPlace body x) ∧
      Rebinds hoisted before names body
        (Stmt.demoteAll hoisted (body.map (·.promote inPlace))) := by
  induction body generalizing before with
  | nil => exact ⟨[], .nil, by simp [Expected, varNames_eq, Stmt.nodesAll], .nil⟩
  | cons s rest ih =>
    by_cases hs : ∃ x init, s = .var .var x init ∧ x ∈ inPlace
    · obtain ⟨x, init, rfl, hx⟩ := hs
      obtain ⟨hunmentioned, hrest⟩ := h.declare hx
      obtain ⟨names, hnodup, hiff, hrebinds⟩ := ih hrest
      have hnot : x ∉ names := fun hmem => h.place.notMem_rest hx ((hiff x).mp hmem).2
      have hdemote : (Stmt.var .letVar x init).demote hoisted = [.var .letVar x init] := by
        simp [Stmt.demote]
      refine ⟨x :: names, List.nodup_cons.mpr ⟨hnot, hnodup⟩, fun y => ?_, ?_⟩
      · rw [List.mem_cons, hiff]
        constructor
        · rintro (rfl | hy)
          · exact .var hx
          · exact hy.cons
        · rintro ⟨hy, hmem⟩
          exact (mem_varNames_cons.mp hmem).imp mem_varNames_var.mp fun hmem => ⟨hy, hmem⟩
      · rw [List.map_cons, promote_of_mem hx, Stmt.demoteAll, hdemote]
        exact .declared hunmentioned hrebinds
    · have hne : ∀ x init, s = .var .var x init → x ∉ inPlace :=
        fun x init heq hx => hs ⟨x, init, heq, hx⟩
      obtain ⟨hdemoted, hrest⟩ := h.demote hne
      obtain ⟨names, hnodup, hiff, hrebinds⟩ := ih hrest
      refine ⟨names, hnodup, fun y => (hiff y).trans (h.place.expected_iff hne).symm, ?_⟩
      rw [List.map_cons, promote_of_ne hne, Stmt.demoteAll]
      exact .demoted hdemoted hrebinds

end Due

theorem eq_letVar_of_mem {reach : Reach} {node : Node}
    (h : node ∈ Stmt.nodesAll reach (hoisted.map (.var .letVar · none))) :
    ∃ x, node = .stmt (.var .letVar x none) := by
  obtain ⟨s, hs, hnode⟩ := Stmt.mem_nodesAll.mp h
  obtain ⟨x, -, rfl⟩ := List.mem_map.mp hs
  exact ⟨x, List.mem_singleton.mp hnode⟩

/-- Rebinding leaves no `var` in the layer of a body. Every name declared so has one new `let`.
It stands in the place of the only declaration, if up to there the name is not mentioned, and
otherwise ahead of the body, where nothing is mentioned. All else stays in its place, with the
initialisers of the latter assigned there. -/
theorem rebind_declares_before_use (body : List Stmt) :
    let rebound := rebind body
    (∀ x init, Node.stmt (.var .var x init) ∉
      Stmt.nodesAll .ownLayer (rebound.declarations ++ rebound.body)) ∧
    ∃ hoisted inPlace : List String,
      (hoisted ++ inPlace).Nodup ∧
      (∀ x, x ∈ hoisted ++ inPlace ↔
        ∃ init, Node.stmt (.var .var x init) ∈ Stmt.nodesAll .ownLayer body) ∧
      (∀ x, x ∈ inPlace ↔ DeclaredFirst body x) ∧
      rebound.declarations = hoisted.map (.var .letVar · none) ∧
      (∀ x, Node.expr (.ident x) ∉ Stmt.nodesAll .nested rebound.declarations) ∧
      Rebinds hoisted rebound.declarations inPlace body rebound.body := by
  intro rebound
  let hoisted := (varNames body).eraseDups.filter (!rebindsInPlace body ·)
  let inPlace := (varNames body).eraseDups.filter (rebindsInPlace body ·)
  have hhoisted (x : String) : x ∈ hoisted ↔ x ∈ varNames body ∧ ¬ inPlaceNames body x :=
    mem_hoistedNames
  have hinPlace (x : String) : x ∈ inPlace ↔ inPlaceNames body x := mem_inPlaceNames
  have hdeclarations : rebound.declarations = hoisted.map (.var .letVar · none) := rfl
  have hsilent (x : String) :
      Node.expr (.ident x) ∉ Stmt.nodesAll .nested rebound.declarations := by
    intro hnode
    obtain ⟨_, heq⟩ := eq_letVar_of_mem hnode
    cases heq
  have hdue : Due hoisted inPlace rebound.declarations body :=
    { disjoint := fun x hx hmem => ((hhoisted x).mp hmem).2 ((hinPlace x).mp hx)
      names := fun x hx => (Decidable.em (x ∈ inPlace)).symm.imp_left fun hnot =>
        (hhoisted x).mpr ⟨hx, fun h => hnot ((hinPlace x).mpr h)⟩
      place := fun x hx => ((hinPlace x).mp hx.1).2
      unmentioned := fun x _ => hsilent x }
  obtain ⟨names, hnodup, hnames, hrebinds⟩ := hdue.exists_rebinds
  replace hnames (x : String) : x ∈ names ↔ inPlaceNames body x := (hnames x).trans expected_iff
  refine ⟨fun x init => ?_, hoisted, names, ?_, fun x => ?_, fun x => ?_, hdeclarations,
    hsilent, hrebinds⟩
  · rw [Stmt.nodesAll_append, List.mem_append, not_or]
    refine ⟨fun hnode => ?_, hrebinds.no_var x init⟩
    obtain ⟨_, heq⟩ := eq_letVar_of_mem hnode
    cases heq
  · refine List.nodup_append.mpr ⟨(nodup_eraseDups _).filter _, hnodup, ?_⟩
    rintro x hx _ hx' rfl
    exact ((hhoisted x).mp hx).2 ((hnames x).mp hx')
  · rw [List.mem_append, hhoisted, hnames, ← mem_varNames]
    constructor
    · exact fun h => h.elim And.left And.left
    · exact fun hx => (hdue.names x hx).imp (hhoisted x).mp (hinPlace x).mp
  · rw [hnames, inPlaceNames_iff]

end Bodies

end StaticInliner
