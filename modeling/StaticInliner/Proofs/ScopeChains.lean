import Mathlib.Logic.Relation
import StaticInliner.Proofs.Validity

/-!
Chains of scopes. Everything that is done to a scope tree comes down to two steps: a
name is bound in a scope, and a scope is opened under one that is there. Both keep the
scopes numbered in order, the global scope first and every other one after its parent,
and found under the bodies that opened them. So the way from a scope through its parents
goes down in number until it ends in the global scope, and no limit on its length is needed.
-/
namespace StaticInliner

namespace ScopeTree

/-- Trees that come about from one without units, or from the scopes of a program, by
operations on scopes that are there. -/
inductive Built : ScopeTree → Prop
  | initial : Built .initial
  | resolved (program : Program) : Built program.scopes
  | push {tree : ScopeTree} (h : Built tree) {parent : Nat} (hparent : parent < tree.size)
    (kind : ScopeKind) : Built (tree.push parent kind)
  | declare {tree : ScopeTree} (h : Built tree) (id : Nat) (name : String) (kind : BindingKind) :
    Built (tree.declare id name kind)
  | splice {tree : ScopeTree} (h : Built tree) {scope : Nat} (hscope : scope < tree.size)
    (stmts : List Stmt) : Built (Stmt.declareAll scope stmts tree)

/-- Binding a name or opening a scope. -/
inductive Step (tree : ScopeTree) : ScopeTree → Prop
  | declare (id : Nat) (name : String) (kind : BindingKind) : Step tree (tree.declare id name kind)
  | push {parent : Nat} (hparent : parent < tree.size) (kind : ScopeKind) :
    Step tree (tree.push parent kind)

/-- Any number of steps. -/
abbrev Steps : ScopeTree → ScopeTree → Prop := Relation.ReflTransGen Step

section Steps

variable {tree tree' : ScopeTree} {site : Nat}

@[simp] theorem size_declare (tree : ScopeTree) (id : Nat) (name : String) (kind : BindingKind) :
    (tree.declare id name kind).size = tree.size := by
  simp [size, declare]

theorem Step.size_le (h : Step tree tree') : tree.size ≤ tree'.size := by
  cases h with
  | declare id name kind => exact Nat.le_of_eq (size_declare tree id name kind).symm
  | push _ kind => exact Nat.le_of_lt (Nat.lt_of_lt_of_eq (Nat.lt_succ_self _) (size_push ..).symm)

theorem Steps.size_le (h : Steps tree tree') : tree.size ≤ tree'.size := by
  induction h with
  | refl => exact Nat.le_refl _
  | tail _ hstep ih => exact Nat.le_trans ih hstep.size_le

theorem steps_bindAll (tree : ScopeTree) (site : Nat) (new : List (String × BindingKind)) :
    Steps tree (tree.bindAll site new) := by
  induction new generalizing tree with
  | nil => exact .refl
  | cons binding rest ih => exact .head (.declare site binding.1 binding.2) (ih _)

theorem steps_foldl {α : Type} {list : List α} {step : ScopeTree → α → ScopeTree}
    (h : ∀ a ∈ list, ∀ tree : ScopeTree, site < tree.size → Steps tree (step tree a))
    (hsite : site < tree.size) : Steps tree (list.foldl step tree) := by
  induction list generalizing tree with
  | nil => exact .refl
  | cons a rest ih =>
    obtain ⟨hfirst, hrest⟩ := List.forall_mem_cons.mp h
    have hstep := hfirst tree hsite
    exact hstep.trans (ih hrest (Nat.lt_of_lt_of_le hsite hstep.size_le))

theorem steps_enter {fn : FunctionLit}
    (hbody : ∀ site, ∀ tree : ScopeTree, site < tree.size →
      Steps tree (Stmt.declareAll site fn.body tree))
    (hsite : site < tree.size) (new : List (String × BindingKind)) :
    Steps tree (tree.enter site fn new) := by
  rw [enter]
  split
  · exact .refl
  · have hopened : Steps tree (tree.opening site fn new) :=
      .head (.push hsite (.function fn.id)) (steps_bindAll _ tree.size new)
    refine hopened.trans (hbody tree.size _ ?_)
    have hle := (steps_bindAll (tree.push site (.function fn.id)) tree.size new).size_le
    rw [size_push] at hle
    exact hle

end Steps

/-- Declaring an expression or a statement in a scope that is there takes such steps. -/
theorem byParts_steps : ByParts
    (fun e => ∀ site, ∀ tree : ScopeTree, site < tree.size → Steps tree (e.declare site tree))
    (fun s => ∀ site, ∀ tree : ScopeTree, site < tree.size → Steps tree (s.declare site tree))
    (fun list => ∀ site, ∀ tree : ScopeTree, site < tree.size →
      Steps tree (Stmt.declareAll site list tree)) := by
  refine ⟨fun e he ih site tree hsite => ?_, fun fn ih site tree hsite => ?_,
    fun fn ih site tree hsite => ?_, fun s hfn hhead hbodies site tree hsite => ?_,
    fun list ih site tree hsite => ?_⟩
  · rw [Expr.declare_operation site he]
    exact steps_foldl (fun operand hoperand tree htree => ih operand hoperand site tree htree) hsite
  · rw [Expr.declare_literal]
    exact steps_enter ih hsite _
  · have hown := steps_bindAll tree site (Stmt.function fn).ownBindings
    rw [Stmt.declare_function]
    exact hown.trans (steps_enter ih (Nat.lt_of_lt_of_le hsite hown.size_le) _)
  · have hown := steps_bindAll tree site s.ownBindings
    have hlt := Nat.lt_of_lt_of_le hsite hown.size_le
    have hexpr : Steps (tree.bindAll site s.ownBindings) (s.head?.toList.foldl
        (fun tree e => e.declare site tree) (tree.bindAll site s.ownBindings)) :=
      steps_foldl (fun e he tree htree => hhead e (Option.mem_toList.mp he) site tree htree) hlt
    rw [Stmt.declare_parts site hfn]
    exact (hown.trans hexpr).trans (steps_foldl
      (fun body hbody tree htree => hbodies body hbody site tree htree)
      (Nat.lt_of_lt_of_le hlt hexpr.size_le))
  · rw [Stmt.declareAll_eq_foldl]
    exact steps_foldl (fun s hs tree htree => ih s hs site tree htree) hsite

theorem steps_declareAll {tree : ScopeTree} {site : Nat} (hsite : site < tree.size)
    (stmts : List Stmt) : Steps tree (Stmt.declareAll site stmts tree) :=
  byParts_steps.stmts stmts site tree hsite

/-- The scopes of a program are built step by step. -/
theorem steps_scopes (program : Program) : Steps .initial program.scopes := by
  have hunit (unit : SourceUnit) (tree : ScopeTree) (htree : globalId < tree.size) :
      Steps tree (tree.addUnit unit) := by
    refine .head (.push htree (.script unit.id)) (steps_declareAll ?_ unit.body)
    rw [size_push]
    exact Nat.lt_succ_self _
  exact steps_foldl (fun unit _ => hunit unit) (by decide)

theorem Built.steps {tree : ScopeTree} (h : Built tree) : Steps .initial tree := by
  induction h with
  | initial => exact .refl
  | resolved program => exact steps_scopes program
  | push _ hparent kind ih => exact ih.tail (.push hparent kind)
  | declare _ id name kind ih => exact ih.tail (.declare id name kind)
  | splice _ hscope stmts ih => exact ih.trans (steps_declareAll hscope stmts)

section Root

/-- A well-formed tree whose first scope, the global one, is the only one without a parent. -/
structure Rooted (tree : ScopeTree) : Prop extends tree.WellFormed where
  root : ∃ scope, tree.get? globalId = some scope ∧ scope.kind = .global
  nested : ∀ i scope, tree.get? i = some scope → (scope.parent = none ↔ i = globalId)

variable {tree tree' : ScopeTree}

theorem rooted_initial : Rooted .initial where
  toWellFormed := wellFormed_initial
  root := ⟨_, rfl, rfl⟩
  nested i scope h := by
    cases i with
    | zero =>
      obtain rfl := Option.some.inj h
      exact iff_of_true rfl rfl
    | succ i => cases h

theorem declare_of_size_le {id : Nat} (h : tree.size ≤ id) (name : String) (kind : BindingKind) :
    tree.declare id name kind = tree := by
  rw [declare, List.modify_eq_self h]

theorem WellFormed.declare (hwf : tree.WellFormed) (id : Nat) (name : String) (kind : BindingKind) :
    (tree.declare id name kind).WellFormed := by
  by_cases hid : id < tree.size
  · exact (grown_declare id tree name kind).wellFormed hwf hid
  · rwa [declare_of_size_le (Nat.le_of_not_lt hid)]

theorem Rooted.declare (h : tree.Rooted) (id : Nat) (name : String) (kind : BindingKind) :
    (tree.declare id name kind).Rooted := by
  have hold {i : Nat} {scope : Scope} (hi : (tree.declare id name kind).get? i = some scope) :
      ∃ old, tree.get? i = some old ∧ scope.frame = old.frame := by
    rw [get?_declare, Option.map_eq_some_iff] at hi
    obtain ⟨old, hold, rfl⟩ := hi
    refine ⟨old, hold, ?_⟩
    split
    · exact old.frame_bind name kind
    · rfl
  refine ⟨h.toWellFormed.declare id name kind, ?_, fun i scope hi => ?_⟩
  · obtain ⟨root, hroot, hkind⟩ := h.root
    obtain ⟨scope, hscope⟩ : ∃ scope, (tree.declare id name kind).get? globalId = some scope := by
      rw [get?_declare, hroot]
      exact ⟨_, rfl⟩
    obtain ⟨old, hold, hframe⟩ := hold hscope
    rw [hroot] at hold
    cases hold
    exact ⟨scope, hscope, (congrArg Scope.kind hframe :).trans hkind⟩
  · obtain ⟨old, hold, hframe⟩ := hold hi
    rw [show scope.parent = old.parent from (congrArg Scope.parent hframe :)]
    exact h.nested i old hold

/-- A second scope of the global kind is found under no body. -/
theorem WellFormed.push_global (hwf : tree.WellFormed) {parent : Nat}
    (hparent : parent < tree.size) :
    (tree.push parent .global).WellFormed := by
  have hnew {i : Nat} {scope : Scope} (hi : (tree.push parent .global).get? i = some scope) :
      (i = tree.size ∧ scope = ⟨tree.size, .global, some parent, []⟩) ∨
        tree.get? i = some scope := by
    rw [get?_push] at hi
    split at hi
    · next heq => exact .inl ⟨heq, (Option.some.inj hi).symm⟩
    · exact .inr hi
  refine ⟨fun i scope hi => ?_, fun i scope hi p hp => ?_, fun i scope hi => ?_,
    fun owner i hi => ?_⟩
  · obtain ⟨rfl, rfl⟩ | hold := hnew hi
    · rfl
    · exact hwf.ids i scope hold
  · obtain ⟨rfl, rfl⟩ | hold := hnew hi
    · exact Option.some.inj hp ▸ hparent
    · exact hwf.parents i scope hold p hp
  · obtain ⟨rfl, rfl⟩ | hold := hnew hi
    · exact .nil
    · exact hwf.distinct i scope hold
  · have hi' : tree.scopeOf? owner = some i := by cases owner <;> exact hi
    obtain ⟨scope, hscope, hkind⟩ := hwf.owners owner i hi'
    have hlt := lt_size_of_get? hscope
    exact ⟨scope, by rw [get?_push, if_neg (by omega), hscope], hkind⟩

theorem Rooted.push (h : tree.Rooted) {parent : Nat} (hparent : parent < tree.size)
    (kind : ScopeKind) : (tree.push parent kind).Rooted where
  toWellFormed := by
    cases kind with
    | global => exact h.toWellFormed.push_global hparent
    | script unit => exact h.toWellFormed.push hparent (.script unit)
    | function node => exact h.toWellFormed.push hparent (.function node)
  root := by
    obtain ⟨root, hroot, hkind⟩ := h.root
    have hlt := lt_size_of_get? hroot
    exact ⟨root, by rw [get?_push, if_neg (by omega), hroot], hkind⟩
  nested i scope hi := by
    rw [get?_push] at hi
    split at hi
    · next heq =>
      -- the global scope was there before
      obtain rfl := Option.some.inj hi
      obtain ⟨root, hroot, -⟩ := h.root
      have hlt := lt_size_of_get? hroot
      exact iff_of_false (fun hnone => by cases hnone) (by omega)
    · exact h.nested i scope hi

/-- One step leaves the tree rooted. -/
theorem Step.rooted (hstep : Step tree tree') (h : tree.Rooted) : tree'.Rooted := by
  cases hstep with
  | declare id name kind => exact h.declare id name kind
  | push hparent kind => exact h.push hparent kind

/-- So do any number of steps. -/
theorem Steps.rooted (hsteps : Steps tree tree') (h : tree.Rooted) : tree'.Rooted := by
  induction hsteps with
  | refl => exact h
  | tail _ hstep ih => exact hstep.rooted ih

theorem Built.rooted (h : tree.Built) : tree.Rooted := h.steps.rooted rooted_initial

end Root

/-- The scopes on the way from a scope through its parents, followed without a limit. -/
inductive Climbs (tree : ScopeTree) : Option Nat → List Scope → Prop
  | top : Climbs tree none []
  | missing {id : Nat} (h : tree.get? id = none) : Climbs tree (some id) []
  | step {id : Nat} {scope : Scope} {rest : List Scope} (h : tree.get? id = some scope)
    (hrest : Climbs tree scope.parent rest) : Climbs tree (some id) (scope :: rest)

section Chains

variable {tree : ScopeTree} {start : Option Nat} {chain chain' : List Scope} {id : Nat}

/-- There is one way up from a scope. -/
theorem Climbs.unique (h : tree.Climbs start chain) (h' : tree.Climbs start chain') :
    chain = chain' := by
  induction h generalizing chain' with
  | top => cases h'; rfl
  | missing hnone =>
    cases h' with
    | missing _ => rfl
    | step hsome _ => rw [hnone] at hsome; cases hsome
  | step hsome _ ih =>
    cases h' with
    | missing hnone => rw [hnone] at hsome; cases hsome
    | step hsome' hrest' =>
      rw [hsome] at hsome'
      cases hsome'
      rw [ih hrest']

theorem Climbs.head?_eq (h : tree.Climbs (some id) chain) : chain.head? = tree.get? id := by
  cases h with
  | missing hnone => exact hnone.symm
  | step hsome _ => exact hsome.symm

/-- A limit beyond the number of the first scope cuts nothing off. -/
theorem WellFormed.climbs_chain (hwf : tree.WellFormed) {limit : Nat}
    (hstart : ∀ id ∈ start, (tree.get? id).isSome = true → id < limit) :
    tree.Climbs start (tree.chain limit start) := by
  induction limit generalizing start with
  | zero =>
    cases start with
    | none => exact .top
    | some id =>
      refine .missing (Option.not_isSome_iff_eq_none.mp fun hsome => ?_)
      exact Nat.not_lt_zero _ (hstart id rfl hsome)
  | succ limit ih =>
    cases start with
    | none => exact .top
    | some id =>
      rw [ScopeTree.chain]
      cases hget : tree.get? id with
      | none => exact .missing hget
      | some scope =>
        refine .step hget (ih fun p hp _ => ?_)
        have hlt := hwf.parents id scope hget p hp
        have hid := hstart id rfl (by rw [hget]; rfl)
        omega

/-- The way up is the list of ancestors. -/
theorem WellFormed.climbs_iff (hwf : tree.WellFormed) :
    tree.Climbs (some id) chain ↔ chain = tree.ancestors id := by
  have hclimbs : tree.Climbs (some id) (tree.ancestors id) := by
    refine hwf.climbs_chain fun other _ hsome => ?_
    obtain ⟨scope, hscope⟩ := Option.isSome_iff_exists.mp hsome
    exact lt_size_of_get? hscope
  exact ⟨fun h => h.unique hclimbs, fun h => h ▸ hclimbs⟩

/-- Numbers go down along a chain. -/
theorem WellFormed.pairwise_climbs (hwf : tree.WellFormed) (h : tree.Climbs start chain) :
    (chain.map (·.id)).Pairwise (· > ·) ∧ ∀ scope ∈ chain, ∀ id ∈ start, scope.id ≤ id := by
  induction h with
  | top => exact ⟨.nil, List.forall_mem_nil _⟩
  | missing _ => exact ⟨.nil, List.forall_mem_nil _⟩
  | @step id scope rest hget hrest ih =>
    have hid := hwf.ids id scope hget
    have hbelow : ∀ above ∈ rest, above.id < id := by
      intro above habove
      cases hparent : scope.parent with
      | none =>
        rw [hparent] at hrest
        cases hrest
        cases habove
      | some p =>
        have hle := ih.2 above habove p hparent
        have hlt := hwf.parents id scope hget p hparent
        omega
    refine ⟨List.pairwise_cons.mpr ⟨fun other hother => ?_, ih.1⟩,
      List.forall_mem_cons.mpr ⟨?_, ?_⟩⟩
    · obtain ⟨above, habove, rfl⟩ := List.mem_map.mp hother
      exact Nat.lt_of_lt_of_eq (hbelow above habove) hid.symm
    · intro first hfirst
      cases hfirst
      exact Nat.le_of_eq hid
    · intro above habove first hfirst
      cases hfirst
      exact Nat.le_of_lt (hbelow above habove)

/-- Every chain that starts at a scope ends in the global one. -/
theorem Rooted.getLast?_climbs (hrooted : tree.Rooted) (h : tree.Climbs start chain)
    (hstart : ∃ id ∈ start, id < tree.size) : chain.getLast? = tree.get? globalId := by
  induction h with
  | top =>
    obtain ⟨id, hid, -⟩ := hstart
    cases hid
  | missing hnone =>
    obtain ⟨id, hid, hlt⟩ := hstart
    cases hid
    rw [get?, List.getElem?_eq_none_iff] at hnone
    exact absurd hlt (Nat.not_lt.mpr hnone)
  | @step id scope rest hget hrest ih =>
    have hnested := hrooted.nested id scope hget
    cases hparent : scope.parent with
    | none =>
      rw [hparent] at hrest
      cases hrest
      rw [← hnested.mp hparent, hget]
      rfl
    | some p =>
      have hlt := hrooted.parents id scope hget p hparent
      have hsize := lt_size_of_get? hget
      obtain ⟨root, hroot, -⟩ := hrooted.root
      rw [List.getLast?_cons, ih ⟨p, hparent, by omega⟩, hroot]
      rfl

/-- However a tree was built, its scopes are numbered in order, parents before children,
with the global scope as the only one without a parent, and are found under the bodies
that opened them. Following parents without a limit ends, with the scopes that every
look-up goes through; from a scope of the tree it goes down in number to the global one. -/
theorem Built.climbs_to_global (h : tree.Built) :
    (∀ i scope, tree.get? i = some scope →
      scope.id = i ∧ (scope.parent = none ↔ i = globalId) ∧ ∀ p ∈ scope.parent, p < i) ∧
    (∀ node i, tree.functionScope? node = some i →
      ∃ scope, tree.get? i = some scope ∧ scope.id = i ∧ scope.kind = .function node) ∧
    (∀ unit i, tree.unitScope? unit = some i →
      ∃ scope, tree.get? i = some scope ∧ scope.id = i ∧ scope.kind = .script unit) ∧
    (∀ id chain, tree.Climbs (some id) chain ↔ chain = tree.ancestors id) ∧
    ∀ id < tree.size,
      (tree.ancestors id).head? = tree.get? id ∧
      ((tree.ancestors id).map (·.id)).Pairwise (· > ·) ∧
      ∃ root, (tree.ancestors id).getLast? = some root ∧ root.id = globalId ∧
        root.kind = .global := by
  have hrooted := h.rooted
  have hwf := hrooted.toWellFormed
  have howner {owner : ChangedBody} {i : Nat} (hi : tree.scopeOf? owner = some i) :
      ∃ scope, tree.get? i = some scope ∧ scope.id = i ∧ scope.kind = owner.kind := by
    obtain ⟨scope, hscope, hkind⟩ := hwf.owners owner i hi
    exact ⟨scope, hscope, hwf.ids i scope hscope, hkind⟩
  refine ⟨fun i scope hi => ⟨hwf.ids i scope hi, hrooted.nested i scope hi, hwf.parents i scope hi⟩,
    fun node i hi => howner (show tree.scopeOf? (.function node) = some i from hi),
    fun unit i hi => howner (show tree.scopeOf? (.script unit) = some i from hi),
    fun id chain => hwf.climbs_iff, fun id hid => ?_⟩
  have hclimbs : tree.Climbs (some id) (tree.ancestors id) := hwf.climbs_iff.mpr rfl
  refine ⟨hclimbs.head?_eq, (hwf.pairwise_climbs hclimbs).1, ?_⟩
  obtain ⟨root, hroot, hkind⟩ := hrooted.root
  refine ⟨root, ?_, hwf.ids globalId root hroot, hkind⟩
  rw [hrooted.getLast?_climbs hclimbs ⟨id, rfl, hid⟩, hroot]

end Chains

end ScopeTree

/-- Two units with one id, in which two literals have one id. -/
def Program.twofold : Program :=
  ⟨[⟨0, "a.js", [.expr (.function ⟨7, some "f", [], [.var .var "x" none]⟩)]⟩,
    ⟨0, "b.js", [.expr (.function ⟨7, none, [], []⟩)]⟩]⟩

/-- A scope without a body under that of the first literal, and a literal put into it. -/
def ScopeTree.grafted : ScopeTree :=
  Stmt.declareAll 4 [.var .letVar "t" (some (.function ⟨8, none, ["p"], []⟩))]
    ((Program.twofold.scopes.push 2 .global).declare 9 "y" .var)

theorem ScopeTree.built_grafted : grafted.Built :=
  .splice (.declare (.push (.resolved .twofold) (by decide +kernel) .global) 9 "y" .var)
    (by decide +kernel) _

/-- The scope of the new literal stands under all that were opened before it but the one of
the second unit. -/
theorem ScopeTree.climbs_to_global_grafted :
    grafted.Built ∧ grafted.functionScope? 8 = some 5 ∧
    (∃ chain, grafted.Climbs (some 5) chain ∧ chain.map (·.id) = [5, 4, 2, 1, 0]) ∧
    ∃ root, (grafted.ancestors 5).getLast? = some root ∧ root.id = globalId ∧
      root.kind = .global := by
  obtain ⟨-, -, -, hclimbs, hchains⟩ := built_grafted.climbs_to_global
  exact ⟨built_grafted, by decide +kernel, ⟨_, (hclimbs 5 _).mpr rfl, by decide +kernel⟩,
    (hchains 5 (by decide +kernel)).2.2⟩

end StaticInliner
