import StaticInliner.Syntax.Encoding
import StaticInliner.Proofs.Validity

/-!
Trees as JSON values. What is written of a tree is read back as the same tree, in both forms of
payloads, exactly if its numbers are finite and its ids fit in 32 bits; and no other trees are
ever read, so that a document once read may be written and read again.
-/
namespace StaticInliner

namespace Json

theorem valuesOf_of_mem {members : List (String × Json)} (hnodup : (members.map (·.1)).Nodup)
    {name : String} {value : Json} (h : (name, value) ∈ members) :
    valuesOf name members = [value] := by
  induction members with
  | nil => cases h
  | cons first rest ih =>
    obtain ⟨hfirst, hrest⟩ := List.nodup_cons.mp hnodup
    rcases List.mem_cons.mp h with rfl | h
    · have hnone : rest.filter (·.1 == name) = [] := by
        refine List.filter_eq_nil_iff.mpr fun other hother heq => hfirst ?_
        exact beq_iff_eq.mp heq ▸ List.mem_map_of_mem (f := (·.1)) hother
      simp [valuesOf, hnone]
    · have hne : first.1 ≠ name := by
        rintro rfl
        exact hfirst (List.mem_map_of_mem (f := (·.1)) h)
      have hvalues := ih hrest h
      rw [valuesOf] at hvalues ⊢
      rwa [List.filter_cons_of_neg (by simpa using hne)]

/-- A record is read from an object with its fields. -/
theorem fields?_obj {names : List String} {members : List (String × Json)}
    (hnames : members.map (·.1) = names) (hnodup : names.Nodup) :
    fields? names (.obj members) = some (members.map (some ·.2)) := by
  subst hnames
  have hread (known : List (String × Json)) (hknown : known ⊆ members) :
      fields? (known.map (·.1)) (.obj members) = some (known.map (some ·.2)) := by
    induction known with
    | nil => rfl
    | cons first rest ih =>
      obtain ⟨hfirst, hrest⟩ := List.cons_subset.mp hknown
      simp only [fields?] at ih ⊢
      simp [List.mapM_cons, valuesOf_of_mem hnodup hfirst, ih hrest]
  exact hread members (List.Subset.refl _)

/-- An object with the members in order is read whole. -/
theorem payloadFields?_obj (form : PayloadForm) {names : List String}
    {members : List (String × Json)} (hnames : members.map (·.1) = names) (hnodup : names.Nodup) :
    payloadFields? form names (.obj members) = some (members.map (some ·.2)) := by
  cases form <;> exact fields?_obj hnames hnodup

theorem required_id {id : Nat} (h : id < 0x100000000) :
    required id? (some (.ofNat id)) = some id := by
  have hfits : (0 : Int) ≤ id ∧ (id : Int) < 0x100000000 := by omega
  rw [required, Option.bind_some, ofNat, id?, if_pos hfits, Int.toNat_natCast]

theorem bind_variant? {α : Type} (tag : String) (payload : Json)
    (read : String × Option Json → Option α) :
    (variant tag payload).variant? >>= read = read (tag, some payload) := rfl

@[simp]
theorem depth_variant (tag : String) (payload : Json) :
    (variant tag payload).depth = payload.depth + 1 := by
  simp only [variant, depth, depthMembers, Nat.max_zero]

/-- A list that was written is read back. -/
theorem list?_map {α : Type} {read : Json → Option α} {write : α → Json} {items : List α}
    (h : ∀ a ∈ items, read (write a) = some a) :
    list? read (.arr (items.map write)) = some items := by
  have hread : (items.map write).mapM read = some items := by
    induction items with
    | nil => rfl
    | cons a rest ih =>
      obtain ⟨hfirst, hrest⟩ := List.forall_mem_cons.mp h
      simp [List.mapM_cons, hfirst, ih hrest]
  exact hread

theorem le_depthItems {item : Json} {items : List Json} (h : item ∈ items) :
    item.depth ≤ depthItems items := by
  induction items with
  | nil => cases h
  | cons first rest ih =>
    rw [depthItems]
    rcases List.mem_cons.mp h with rfl | h
    · omega
    · have := ih h
      omega

theorem option?_of_ne {α : Type} {read : Json → Option α} {json : Json} {a : α} (hne : json ≠ .null)
    (h : read json = some a) : option? read json = some (some a) := by
  cases json with
  | null => exact absurd rfl hne
  | _ => exact congrArg (Option.map some) h

section Inversion

variable {α : Type} {read : Json → Option α} {P : α → Prop}

theorem of_required (hread : ∀ json a, read json = some a → P a) {field : Option Json} {a : α}
    (h : required read field = some a) : P a := by
  obtain ⟨json, -, h⟩ := Option.bind_eq_some_iff.mp h
  exact hread json a h

theorem of_list? (hread : ∀ json a, read json = some a → P a) {json : Json} {items : List α}
    (h : list? read json = some items) : ∀ a ∈ items, P a := by
  cases json with
  | arr values =>
    rw [list?] at h
    induction values generalizing items with
    | nil =>
      cases h
      exact List.forall_mem_nil _
    | cons value rest ih =>
      simp only [List.mapM_cons, Option.bind_eq_bind, Option.bind_eq_some_iff, Option.pure_def,
        Option.some.injEq] at h
      obtain ⟨a, ha, others, hothers, rfl⟩ := h
      exact List.forall_mem_cons.mpr ⟨hread value a ha, ih hothers⟩
  | _ => cases h

theorem of_option? (hread : ∀ json a, read json = some a → P a) {json : Json} {o : Option α}
    (h : option? read json = some o) : ∀ a ∈ o, P a := by
  intro a ha
  cases json with
  | null =>
    cases h
    cases ha
  | _ =>
    obtain ⟨b, hb, rfl⟩ := Option.map_eq_some_iff.mp h
    cases ha
    exact hread _ a hb

theorem of_optional (hread : ∀ json a, read json = some a → P a) {field : Option Json}
    {o : Option α} (h : optional read field = some o) :
    ∀ a ∈ o, P a := by
  cases field with
  | none =>
    cases h
    intro a ha
    cases ha
  | some json => exact of_option? hread h

end Inversion

/-- Only finite numbers are read. -/
theorem isFinite_of_float? (json : Json) (x : Float) (h : float? json = some x) :
    x.isFinite = true := by
  have hfinite {y : Float} (h : float?.finite? y = some x) : x.isFinite = true := by
    unfold float?.finite? at h
    split at h
    · next hy =>
      cases h
      exact hy
    · cases h
  cases json with
  | int n => exact hfinite h
  | float y => exact hfinite h
  | _ => cases h

/-- Only ids below `2 ^ 32` are read. -/
theorem lt_of_id? (json : Json) (id : Nat) (h : id? json = some id) : id < 0x100000000 := by
  cases json with
  | int n =>
    rw [id?] at h
    split at h
    · cases h
      omega
    · cases h
  | _ => cases h

end Json

theorem VarKind.ofJson?_tag (kind : VarKind) : VarKind.ofJson? (.str kind.tag) = some kind := by
  cases kind <;> rfl

theorem BinaryOp.ofJson?_tag (op : BinaryOp) : BinaryOp.ofJson? (.str op.tag) = some op := by
  cases op <;> rfl

theorem LogicalOp.ofJson?_tag (op : LogicalOp) : LogicalOp.ofJson? (.str op.tag) = some op := by
  cases op <;> rfl

theorem UnaryOp.ofJson?_tag (op : UnaryOp) : UnaryOp.ofJson? (.str op.tag) = some op := by
  cases op <;> rfl

/-- The numbers written in a node itself. -/
def Node.numbers : Node → List Float
  | .expr (.number x) => [x]
  | _ => []

/-- Numbers are finite and ids fit in 32 bits. -/
def Node.Portable (node : Node) : Prop :=
  (∀ x ∈ node.numbers, x.isFinite = true) ∧ ∀ id ∈ node.functionIds, id < 0x100000000

def Expr.Portable (e : Expr) : Prop := ∀ node ∈ e.nodes .nested, node.Portable

def Stmt.Portable (s : Stmt) : Prop := ∀ node ∈ s.nodes .nested, node.Portable

theorem Expr.toJsonAll_eq_map (es : List Expr) : Expr.toJsonAll es = es.map Expr.toJson := by
  induction es with
  | nil => rfl
  | cons e rest ih => rw [Expr.toJsonAll, ih, List.map_cons]

theorem Stmt.toJsonAll_eq_map (stmts : List Stmt) :
    Stmt.toJsonAll stmts = stmts.map Stmt.toJson := by
  induction stmts with
  | nil => rfl
  | cons s rest ih => rw [Stmt.toJsonAll, ih, List.map_cons]

/-- An operation can be written if its node and its operands can. -/
theorem Expr.portable_operation {e : Expr} (h : e.ownsLayer = false) :
    e.Portable ↔ (Node.expr e).Portable ∧ ∀ operand ∈ e.children, operand.Portable := by
  rw [Portable, nodes_operation .nested h, List.forall_mem_cons, nodesAll_eq_flatMap]
  simp only [List.mem_flatMap, forall_exists_index, and_imp]
  exact and_congr_right fun _ => ⟨fun h operand hoperand node => h node operand hoperand,
    fun h node operand hoperand => h operand hoperand node⟩

theorem Expr.portable_function (fn : FunctionLit) : (Expr.function fn).Portable ↔
    fn.id < 0x100000000 ∧ ∀ s ∈ fn.body, s.Portable := by
  rw [Portable, nodes_function, List.forall_mem_cons, Stmt.nodesAll_eq_flatMap]
  simp only [List.mem_flatMap, forall_exists_index, and_imp]
  refine and_congr ?_ ⟨fun h s hs node => h node s hs, fun h node s hs => h s hs node⟩
  simp [Node.Portable, Node.numbers, Node.functionIds, Node.function?]

theorem Stmt.portable_function (fn : FunctionLit) : (Stmt.function fn).Portable ↔
    (Expr.function fn).Portable := by
  rw [Portable, Expr.Portable, nodes_function, Expr.nodes_function, List.forall_mem_cons,
    List.forall_mem_cons]
  exact and_congr_left fun _ => Iff.rfl

theorem Stmt.portable_parts {s : Stmt} (h : s.function? = none) : s.Portable ↔
    (∀ e ∈ s.head?, e.Portable) ∧ ∀ body ∈ s.bodies, ∀ inner ∈ body, inner.Portable := by
  have hnode : (Node.stmt s).Portable := by
    refine ⟨List.forall_mem_nil _, ?_⟩
    rw [Node.functionIds, Stmt.function?_node, h]
    exact List.forall_mem_nil _
  rw [Portable, nodes_parts .nested h, List.forall_mem_cons, List.forall_mem_append,
    Expr.nodesAll_eq_flatMap]
  simp only [hnode, true_and, List.mem_flatMap, Option.mem_toList, forall_exists_index, and_imp,
    Stmt.nodesAll_eq_flatMap]
  exact and_congr ⟨fun h e he node => h node e he, fun h node e he => h e he node⟩
    ⟨fun h body hbody s hs node => h node body hbody s hs,
      fun h node body hbody s hs => h body hbody s hs node⟩

/-- An expression is read back from its own value, in any form of payloads. -/
def Expr.ReadsBack (e : Expr) : Prop :=
  e.Portable → ∀ form depth, e.toJson.depth < depth → Expr.read? form depth e.toJson = some e

/-- The same for a statement. -/
def Stmt.ReadsBack (s : Stmt) : Prop :=
  s.Portable → ∀ form depth, s.toJson.depth < depth → Stmt.read? form depth s.toJson = some s

/-- An operand is written less deep than the operation. -/
theorem Expr.depth_lt_of_mem_children {e operand : Expr} (h : operand ∈ e.children) :
    operand.toJson.depth < e.toJson.depth := by
  have hitems {es : List Expr} (h : operand ∈ es) :
      operand.toJson.depth ≤ Json.depthItems (Expr.toJsonAll es) := by
    rw [Expr.toJsonAll_eq_map]
    exact Json.le_depthItems (List.mem_map_of_mem h)
  cases e with
  | call _ _ | new _ _ =>
    rcases List.mem_cons.mp h with rfl | h
    · simp only [toJson, Json.variant, Json.depth, Json.depthMembers]
      omega
    · have := hitems h
      simp only [toJson, Json.variant, Json.depth, Json.depthMembers]
      omega
  | sequence items | array items =>
    have : operand.toJson.depth ≤ Json.depthItems (Expr.toJsonAll items) := hitems h
    simp only [toJson, Json.variant, Json.depth, Json.depthMembers]
    omega
  | undefined | null | bool _ | number _ | string _ | ident _ | this | function _ => cases h
  | _ =>
    simp only [children, List.mem_cons, List.not_mem_nil, or_false] at h
    simp only [toJson, Json.variant, Json.depth, Json.depthMembers]
    rcases h with rfl | rfl | rfl <;> omega

theorem Stmt.depth_head {s : Stmt} {e : Expr} (h : s.head? = some e) :
    e.toJson.depth < s.toJson.depth := by
  cases s with
  | var _ _ init | ret init =>
    cases h
    simp only [toJson, Json.variant, Json.depth, Json.depthMembers]
    omega
  | ifElse _ _ elseBranch =>
    cases h
    cases elseBranch <;> simp only [toJson, Json.variant, Json.depth, Json.depthMembers] <;> omega
  | function _ | block _ | labeled _ _ | breakTo _ | continueTo _ => cases h
  | _ =>
    cases h
    simp only [toJson, Json.variant, Json.depth, Json.depthMembers]
    omega

theorem Stmt.depth_le_depthItems {s : Stmt} {body : List Stmt} (h : s ∈ body) :
    s.toJson.depth ≤ Json.depthItems (Stmt.toJsonAll body) := by
  rw [Stmt.toJsonAll_eq_map]
  exact Json.le_depthItems (List.mem_map_of_mem h)

theorem FunctionLit.depth_body {fn : FunctionLit} {s : Stmt} (h : s ∈ fn.body) :
    s.toJson.depth < fn.toJson.depth := by
  obtain ⟨id, name, params, body⟩ := fn
  have hitems : s.toJson.depth ≤ Json.depthItems (Stmt.toJsonAll body) := Stmt.depth_le_depthItems h
  simp only [toJson, Json.depth, Json.depthMembers]
  omega

theorem Stmt.depth_body {s inner : Stmt} {body : List Stmt} (h : body ∈ s.bodies)
    (hinner : inner ∈ body) :
    inner.toJson.depth < s.toJson.depth := by
  have hitems := Stmt.depth_le_depthItems hinner
  cases s with
  | ifElse _ _ elseBranch =>
    cases elseBranch with
    | none =>
      obtain rfl := List.mem_singleton.mp h
      simp only [toJson, Json.variant, Json.depth, Json.depthMembers]
      omega
    | some elseBranch =>
      simp only [bodies, List.mem_cons, List.not_mem_nil, or_false] at h
      simp only [toJson, Json.variant, Json.depth, Json.depthMembers]
      rcases h with rfl | rfl <;> omega
  | function fn =>
    obtain rfl := List.mem_singleton.mp h
    have := FunctionLit.depth_body hinner
    simp only [toJson, Json.depth_variant]
    omega
  | whileDo _ _ | block _ | labeled _ _ =>
    obtain rfl := List.mem_singleton.mp h
    simp only [toJson, Json.variant, Json.depth, Json.depthMembers]
    omega
  | _ => cases h

/-- The step at an operation. -/
theorem Expr.readsBack_operation {e : Expr} (hlayer : e.ownsLayer = false)
    (ih : ∀ operand ∈ e.children, operand.ReadsBack) : e.ReadsBack := by
  intro hportable form depth hdepth
  obtain ⟨hnode, hportable⟩ := (portable_operation hlayer).mp hportable
  obtain ⟨depth, rfl⟩ := Nat.exists_eq_succ_of_ne_zero (Nat.ne_zero_of_lt hdepth)
  have hread : ∀ operand ∈ e.children, Expr.read? form depth operand.toJson = some operand := by
    intro operand hoperand
    have hlt := depth_lt_of_mem_children hoperand
    exact ih operand hoperand (hportable operand hoperand) form depth (by omega)
  clear ih hportable hdepth
  cases e with
  | function _ => cases hlayer
  | undefined | null | this | bool _ | string _ | ident _ => rfl
  | number x =>
    have hfinite : x.isFinite = true := hnode.1 x (List.mem_singleton_self x)
    simp only [Expr.toJson, Expr.read?, ↓Json.bind_variant?, hfinite, if_true, Json.required,
      Option.bind_some, Json.float?, Json.float?.finite?, Option.map_some]
  | call _ args | new _ args =>
    obtain ⟨hcallee, hargs⟩ := List.forall_mem_cons.mp hread
    simp only [Expr.toJson, Expr.read?, ↓Json.bind_variant?]
    simp [Json.payloadFields?_obj, Json.required, hcallee, Expr.toJsonAll_eq_map,
      Json.list?_map hargs]
  | sequence items | array items =>
    have hitems : Json.list? (Expr.read? form depth) (.arr (items.map Expr.toJson)) = some items :=
      Json.list?_map hread
    simp only [Expr.toJson, Expr.read?, ↓Json.bind_variant?, Json.required, Option.bind_some,
      Expr.toJsonAll_eq_map, hitems, Option.map_some]
  | assign target op value =>
    simp only [children, List.forall_mem_cons] at hread
    have hop : Json.optional BinaryOp.ofJson? (some (.ofOption (.str ·.tag) op)) = some op := by
      cases op with
      | none => rfl
      | some op => exact congrArg (Option.map some) op.ofJson?_tag
    simp only [Expr.toJson, Expr.read?, ↓Json.bind_variant?]
    simp [Json.payloadFields?_obj, Json.required, hread, hop]
  | _ =>
    simp only [children, List.forall_mem_cons] at hread
    simp only [Expr.toJson, Expr.read?, ↓Json.bind_variant?]
    simp [Json.payloadFields?_obj, Json.required, hread, Json.str?, BinaryOp.ofJson?_tag,
      LogicalOp.ofJson?_tag, UnaryOp.ofJson?_tag]

/-- A function is read back if its body is. -/
theorem FunctionLit.read?_toJson {fn : FunctionLit} (hid : fn.id < 0x100000000)
    {form : Json.PayloadForm} {depth : Nat}
    (hbody : ∀ s ∈ fn.body, Stmt.read? form depth s.toJson = some s) :
    FunctionLit.read? form (depth + 1) fn.toJson = some fn := by
  obtain ⟨id, name, params, body⟩ := fn
  have hname : Json.optional Json.str? (some (.ofOption .str name)) = some name := by
    cases name <;> rfl
  have hparams : Json.required (Json.list? Json.str?) (some (.strings params)) = some params :=
    Json.list?_map fun _ _ => rfl
  have hbody' : Json.required (Json.list? (Stmt.read? form depth))
      (some (.arr (Stmt.toJsonAll body))) = some body := by
    rw [Stmt.toJsonAll_eq_map]
    exact Json.list?_map hbody
  rw [FunctionLit.toJson, FunctionLit.read?, Json.fields?_obj, Option.bind_eq_bind,
    Option.bind_some]
  · dsimp only [List.map]
    rw [Json.required_id hid, hname, hparams, hbody']
    rfl
  · rfl
  · decide

theorem Expr.toJson_ne_null (e : Expr) : e.toJson ≠ .null := by
  cases e <;> simp [toJson, Json.variant]

theorem FunctionLit.read?_of_readsBack {fn : FunctionLit} (hbody : ∀ s ∈ fn.body, s.ReadsBack)
    (hportable : (Expr.function fn).Portable) (form : Json.PayloadForm) (depth : Nat)
    (hdepth : fn.toJson.depth < depth) : FunctionLit.read? form depth fn.toJson = some fn := by
  obtain ⟨hid, hstmts⟩ := (Expr.portable_function fn).mp hportable
  obtain ⟨depth, rfl⟩ := Nat.exists_eq_succ_of_ne_zero (Nat.ne_zero_of_lt hdepth)
  refine FunctionLit.read?_toJson hid fun s hs => hbody s hs (hstmts s hs) form depth ?_
  have := FunctionLit.depth_body hs
  omega

theorem Expr.readsBack_literal {fn : FunctionLit} (hbody : ∀ s ∈ fn.body, s.ReadsBack) :
    (Expr.function fn).ReadsBack := by
  intro hportable form depth hdepth
  obtain ⟨depth, rfl⟩ := Nat.exists_eq_succ_of_ne_zero (Nat.ne_zero_of_lt hdepth)
  have hread := FunctionLit.read?_of_readsBack hbody hportable form depth
    (by simp only [toJson, Json.depth_variant] at hdepth; omega)
  simp only [toJson, read?, ↓Json.bind_variant?, Json.required, Option.bind_some, hread,
    Option.map_some]

theorem Stmt.readsBack_function {fn : FunctionLit} (hbody : ∀ s ∈ fn.body, s.ReadsBack) :
    (Stmt.function fn).ReadsBack := by
  intro hportable form depth hdepth
  obtain ⟨depth, rfl⟩ := Nat.exists_eq_succ_of_ne_zero (Nat.ne_zero_of_lt hdepth)
  have hread :=
    FunctionLit.read?_of_readsBack hbody ((portable_function fn).mp hportable) form depth
    (by simp only [toJson, Json.depth_variant] at hdepth; omega)
  simp only [toJson, read?, ↓Json.bind_variant?]
  simp only [Option.bind_eq_bind, Option.bind_some, hread, Option.map_some]

/-- The step at any other statement. -/
theorem Stmt.readsBack_parts {s : Stmt} (hfn : s.function? = none)
    (hhead : ∀ e ∈ s.head?, e.ReadsBack)
    (hbodies : ∀ body ∈ s.bodies, ∀ inner ∈ body, inner.ReadsBack) : s.ReadsBack := by
  intro hportable form depth hdepth
  obtain ⟨hhead', hbodies'⟩ := (portable_parts hfn).mp hportable
  obtain ⟨depth, rfl⟩ := Nat.exists_eq_succ_of_ne_zero (Nat.ne_zero_of_lt hdepth)
  have hexpr : ∀ e ∈ s.head?, Expr.read? form depth e.toJson = some e := by
    intro e he
    have := Stmt.depth_head he
    exact hhead e he (hhead' e he) form depth (by omega)
  have hstmts : ∀ body ∈ s.bodies,
      Json.list? (Stmt.read? form depth) (.arr (Stmt.toJsonAll body)) = some body := by
    intro body hbody
    rw [Stmt.toJsonAll_eq_map]
    refine Json.list?_map fun inner hinner => ?_
    have := Stmt.depth_body hbody hinner
    exact hbodies body hbody inner hinner (hbodies' body hbody inner hinner) form depth (by omega)
  clear hhead hbodies hportable hdepth hhead' hbodies'
  cases s with
  | function _ => cases hfn
  | var kind name init =>
    cases init with
    | none =>
      simp only [toJson, read?, ↓Json.bind_variant?]
      simp [Json.payloadFields?_obj, Json.required, VarKind.ofJson?_tag, Json.str?, Json.optional,
        Json.option?]
    | some e =>
      have hinit := Json.option?_of_ne e.toJson_ne_null (hexpr e rfl)
      simp only [toJson, read?, ↓Json.bind_variant?]
      simp [Json.payloadFields?_obj, Json.required, VarKind.ofJson?_tag, Json.str?,
        Json.optional, hinit]
  | ret value =>
    cases value with
    | none => rfl
    | some e =>
      have hvalue := Json.option?_of_ne e.toJson_ne_null (hexpr e rfl)
      simp only [toJson, read?, ↓Json.bind_variant?]
      simp [hvalue]
  | breakTo label | continueTo label => cases label <;> rfl
  | expr e | throw e =>
    simp only [toJson, read?, ↓Json.bind_variant?]
    simp [hexpr e rfl]
  | ifElse condition thenBranch elseBranch =>
    cases elseBranch with
    | none =>
      have hthen := hstmts thenBranch (List.mem_singleton_self _)
      simp only [toJson, read?, ↓Json.bind_variant?]
      simp [Json.payloadFields?_obj, Json.required, hexpr condition rfl, hthen, Json.optional,
        Json.option?]
    | some elseBranch =>
      have hthen := hstmts thenBranch List.mem_cons_self
      have helse := hstmts elseBranch (List.mem_cons_of_mem _ (List.mem_singleton_self _))
      simp only [toJson, read?, ↓Json.bind_variant?]
      simp [Json.payloadFields?_obj, Json.required, hexpr condition rfl, hthen, Json.optional,
        Json.option?, helse]
  | whileDo condition body =>
    have hbody := hstmts body (List.mem_singleton_self _)
    simp only [toJson, read?, ↓Json.bind_variant?]
    simp [Json.payloadFields?_obj, Json.required, hexpr condition rfl, hbody]
  | block body =>
    have hbody := hstmts body (List.mem_singleton_self _)
    simp only [toJson, read?, ↓Json.bind_variant?]
    simp [hbody]
  | labeled label body =>
    have hbody := hstmts body (List.mem_singleton_self _)
    simp only [toJson, read?, ↓Json.bind_variant?]
    simp [Json.payloadFields?_obj, Json.required, hbody, Json.str?]

/-- Every tree that can be written is read back. -/
theorem byParts_readsBack :
    ByParts Expr.ReadsBack Stmt.ReadsBack fun list => ∀ s ∈ list, s.ReadsBack where
  operation _ := Expr.readsBack_operation
  literal _ := Expr.readsBack_literal
  declaration _ := Stmt.readsBack_function
  statement _ := Stmt.readsBack_parts
  list _ ih := ih

theorem Expr.portable_of_children {e : Expr} (hlayer : e.ownsLayer = false)
    (hnumbers : (Node.expr e).numbers = []) (h : ∀ operand ∈ e.children, operand.Portable) :
    e.Portable := by
  refine (portable_operation hlayer).mpr ⟨⟨?_, ?_⟩, h⟩
  · rw [hnumbers]
    exact List.forall_mem_nil _
  · rw [Node.functionIds, function?_of_ownsLayer hlayer]
    exact List.forall_mem_nil _

/-- What is read from JSON has finite numbers and ids that fit. -/
theorem Expr.portable_of_read {form : Json.PayloadForm} {depth : Nat}
    (hexpr : ∀ json e, Expr.read? form depth json = some e → e.Portable)
    (hfn : ∀ json fn, FunctionLit.read? form depth json = some fn → (Expr.function fn).Portable)
    (json : Json) (e : Expr) (h : Expr.read? form (depth + 1) json = some e) : e.Portable := by
  rw [Expr.read?] at h
  obtain ⟨⟨tag, payload⟩, -, hread⟩ := Option.bind_eq_some_iff.mp h
  clear h
  dsimp only at hread
  split at hread
  case h_20 => cases hread
  all_goals
    simp only [Option.bind_eq_bind, Option.map_eq_some_iff, Option.bind_eq_some_iff] at hread
  case h_5 =>
    obtain ⟨x, hx, rfl⟩ := hread
    have hfinite := Json.of_required Json.isFinite_of_float? hx
    exact (portable_operation rfl).mpr
      ⟨⟨List.forall_mem_singleton.mpr hfinite, List.forall_mem_nil _⟩, List.forall_mem_nil _⟩
  case h_1 | h_2 | h_3 | h_4 | h_6 | h_7 =>
    obtain ⟨_, -, rfl⟩ := hread
    exact portable_of_children rfl rfl (List.forall_mem_nil _)
  case h_17 | h_18 =>
    obtain ⟨items, hitems, rfl⟩ := hread
    exact portable_of_children rfl rfl (Json.of_required (fun _ _ => Json.of_list? hexpr) hitems)
  case h_19 =>
    obtain ⟨fn, hfunction, rfl⟩ := hread
    exact Json.of_required hfn hfunction
  -- the records, in the order in which they are tried
  all_goals
    obtain ⟨_, -, fields, -, hread⟩ := hread
    split at hread
    case h_2 => cases hread
    simp only [Option.bind_eq_some_iff, Option.pure_def, Option.some.injEq] at hread
  · obtain ⟨object, hobject, property, -, rfl⟩ := hread
    exact portable_of_children rfl rfl
      (List.forall_mem_singleton.mpr (Json.of_required hexpr hobject))
  · obtain ⟨object, hobject, key, hkey, rfl⟩ := hread
    exact portable_of_children rfl rfl
      (by simp [children, Json.of_required hexpr hobject, Json.of_required hexpr hkey])
  iterate 2
    obtain ⟨callee, hcallee, args, hargs, rfl⟩ := hread
    exact portable_of_children rfl rfl (List.forall_mem_cons.mpr
      ⟨Json.of_required hexpr hcallee, Json.of_required (fun _ _ => Json.of_list? hexpr) hargs⟩)
  · obtain ⟨target, htarget, op, -, value, hvalue, rfl⟩ := hread
    exact portable_of_children rfl rfl
      (by simp [children, Json.of_required hexpr htarget, Json.of_required hexpr hvalue])
  iterate 2
    obtain ⟨op, -, left, hleft, right, hright, rfl⟩ := hread
    exact portable_of_children rfl rfl
      (by simp [children, Json.of_required hexpr hleft, Json.of_required hexpr hright])
  · obtain ⟨op, -, operand, hoperand, rfl⟩ := hread
    exact portable_of_children rfl rfl
      (List.forall_mem_singleton.mpr (Json.of_required hexpr hoperand))
  · obtain ⟨condition, hcondition, thenExpr, hthen, elseExpr, helse, rfl⟩ := hread
    exact portable_of_children rfl rfl (by simp [children, Json.of_required hexpr hcondition,
      Json.of_required hexpr hthen, Json.of_required hexpr helse])

/-- The step to a statement, from what is read below it. -/
theorem Stmt.portable_of_read {form : Json.PayloadForm} {depth : Nat}
    (hexpr : ∀ json e, Expr.read? form depth json = some e → e.Portable)
    (hstmt : ∀ json s, Stmt.read? form depth json = some s → s.Portable)
    (hfn : ∀ json fn, FunctionLit.read? form depth json = some fn → (Expr.function fn).Portable)
    (json : Json) (s : Stmt) (h : Stmt.read? form (depth + 1) json = some s) : s.Portable := by
  have hbodies (json : Json) (body : List Stmt) :
      Json.list? (Stmt.read? form depth) json = some body → ∀ s ∈ body, s.Portable :=
    Json.of_list? hstmt
  rw [Stmt.read?] at h
  obtain ⟨⟨tag, payload⟩, -, hread⟩ := Option.bind_eq_some_iff.mp h
  clear h
  dsimp only at hread
  obtain ⟨payload, -, hread⟩ := Option.bind_eq_some_iff.mp hread
  split at hread
  case h_12 => cases hread
  all_goals
    simp only [Option.bind_eq_bind, Option.map_eq_some_iff, Option.bind_eq_some_iff] at hread
  case h_2 =>
    obtain ⟨fn, hfunction, rfl⟩ := hread
    exact (portable_function fn).mpr (hfn payload fn hfunction)
  case h_3 | h_11 =>
    obtain ⟨value, hvalue, rfl⟩ := hread
    exact (portable_parts rfl).mpr
      ⟨by simpa [head?] using hexpr payload value hvalue, List.forall_mem_nil _⟩
  case h_4 =>
    obtain ⟨value, hvalue, rfl⟩ := hread
    exact (portable_parts rfl).mpr ⟨Json.of_option? hexpr hvalue, List.forall_mem_nil _⟩
  case h_7 =>
    obtain ⟨body, hbody, rfl⟩ := hread
    exact (portable_parts rfl).mpr
      ⟨by simp [head?], List.forall_mem_singleton.mpr (hbodies payload body hbody)⟩
  case h_9 | h_10 =>
    obtain ⟨label, -, rfl⟩ := hread
    exact (portable_parts rfl).mpr ⟨by simp [head?], List.forall_mem_nil _⟩
  -- the records, in the order in which they are tried
  all_goals
    obtain ⟨fields, -, hread⟩ := hread
    split at hread
    case h_2 => cases hread
    simp only [Option.bind_eq_some_iff, Option.pure_def, Option.some.injEq] at hread
  · obtain ⟨kind, -, name, -, init, hinit, rfl⟩ := hread
    exact (portable_parts rfl).mpr ⟨Json.of_optional hexpr hinit, List.forall_mem_nil _⟩
  · obtain ⟨condition, hcondition, thenBranch, hthen, elseBranch, helse, rfl⟩ := hread
    refine (portable_parts rfl).mpr ⟨by simpa [head?] using Json.of_required hexpr hcondition, ?_⟩
    have hthen := Json.of_required hbodies hthen
    have helse := Json.of_optional hbodies helse
    cases elseBranch with
    | none => exact List.forall_mem_singleton.mpr hthen
    | some elseBranch =>
      exact List.forall_mem_cons.mpr ⟨hthen, List.forall_mem_singleton.mpr (helse elseBranch rfl)⟩
  · obtain ⟨condition, hcondition, body, hbody, rfl⟩ := hread
    exact (portable_parts rfl).mpr ⟨by simpa [head?] using Json.of_required hexpr hcondition,
      List.forall_mem_singleton.mpr (Json.of_required hbodies hbody)⟩
  · obtain ⟨label, -, body, hbody, rfl⟩ := hread
    exact (portable_parts rfl).mpr
      ⟨by simp [head?], List.forall_mem_singleton.mpr (Json.of_required hbodies hbody)⟩

theorem FunctionLit.portable_of_read {form : Json.PayloadForm} {depth : Nat}
    (hstmt : ∀ json s, Stmt.read? form depth json = some s → s.Portable)
    (json : Json) (fn : FunctionLit) (h : FunctionLit.read? form (depth + 1) json = some fn) :
    (Expr.function fn).Portable := by
  rw [FunctionLit.read?] at h
  obtain ⟨fields, -, hread⟩ := Option.bind_eq_some_iff.mp h
  clear h
  split at hread
  · simp only [Option.bind_eq_bind, Option.bind_eq_some_iff, Option.pure_def,
      Option.some.injEq] at hread
    obtain ⟨id, hid, name, -, params, -, body, hbody, rfl⟩ := hread
    exact (Expr.portable_function _).mpr
      ⟨Json.of_required Json.lt_of_id? hid, Json.of_required (fun _ _ => Json.of_list? hstmt) hbody⟩
  · cases hread

/-- All that is read can be written, by induction on the depth. -/
theorem portable_read (form : Json.PayloadForm) (depth : Nat) :
    (∀ json e, Expr.read? form depth json = some e → e.Portable) ∧
      (∀ json s, Stmt.read? form depth json = some s → s.Portable) ∧
        ∀ json fn, FunctionLit.read? form depth json = some fn → (Expr.function fn).Portable := by
  induction depth with
  | zero =>
    refine ⟨?_, ?_, ?_⟩ <;> intro json tree h
    · rw [Expr.read?] at h
      cases h
    · rw [Stmt.read?] at h
      cases h
    · rw [FunctionLit.read?] at h
      cases h
  | succ depth ih =>
    obtain ⟨hexpr, hstmt, hfn⟩ := ih
    exact ⟨Expr.portable_of_read hexpr hfn, Stmt.portable_of_read hexpr hstmt hfn,
      FunctionLit.portable_of_read hstmt⟩

/-- The numbers of a unit are finite, and its ids fit. -/
def SourceUnit.Portable (unit : SourceUnit) : Prop :=
  unit.id < 0x100000000 ∧ ∀ s ∈ unit.body, s.Portable

theorem SourceUnit.ofJson?_toJson {unit : SourceUnit} (h : unit.Portable)
    (form : Json.PayloadForm) :
    SourceUnit.ofJson? form unit.toJson = some unit := by
  obtain ⟨id, name, body⟩ := unit
  have hname : Json.required Json.str? (some (.str name)) = some name := rfl
  have hbody : Json.required (Json.list? (Stmt.ofJson? form)) (some (.arr (Stmt.toJsonAll body))) =
      some body := by
    rw [Stmt.toJsonAll_eq_map]
    exact Json.list?_map fun s hs =>
      byParts_readsBack.stmt s (h.2 s hs) form (s.toJson.depth + 1) (Nat.lt_succ_self _)
  rw [toJson, ofJson?, Json.fields?_obj, Option.bind_eq_bind, Option.bind_some]
  · dsimp only [List.map]
    rw [Json.required_id h.1, hname, hbody]
    rfl
  · rfl
  · decide

theorem SourceUnit.portable_of_ofJson? (form : Json.PayloadForm) (json : Json) (unit : SourceUnit)
    (h : SourceUnit.ofJson? form json = some unit) : unit.Portable := by
  obtain ⟨fields, -, hread⟩ := Option.bind_eq_some_iff.mp h
  clear h
  split at hread
  · simp only [Option.bind_eq_bind, Option.bind_eq_some_iff, Option.pure_def,
      Option.some.injEq] at hread
    obtain ⟨id, hid, name, -, body, hbody, rfl⟩ := hread
    have hstmt (json : Json) (s : Stmt) : Stmt.ofJson? form json = some s → s.Portable :=
      (portable_read form (json.depth + 1)).2.1 json s
    exact ⟨Json.of_required Json.lt_of_id? hid,
      Json.of_required (fun _ _ => Json.of_list? hstmt) hbody⟩
  · cases hread

namespace Program

/-- The numbers written in a program. -/
def numbers (program : Program) : List Float := program.nodes.flatMap Node.numbers

/-- The ids of the units and of the functions of a program. -/
def ids (program : Program) : List Nat :=
  program.units.map (·.id) ++ functionIds program.nodes

theorem portable_iff {program : Program} : (∀ unit ∈ program.units, unit.Portable) ↔
    (∀ x ∈ program.numbers, x.isFinite = true) ∧ ∀ id ∈ program.ids, id < 0x100000000 := by
  simp only [SourceUnit.Portable, numbers, ids, nodes, functionIds, Stmt.nodesAll_eq_flatMap,
    Stmt.Portable, Node.Portable, List.mem_append, List.mem_map, List.mem_flatMap]
  grind

theorem ofJson?_toJson {program : Program} (h : ∀ unit ∈ program.units, unit.Portable)
    (form : Json.PayloadForm) : ofJson? form program.toJson = some program := by
  have hunits : Json.required (Json.list? (SourceUnit.ofJson? form))
      (some (.arr (program.units.map (·.toJson)))) = some program.units :=
    Json.list?_map fun unit hunit => SourceUnit.ofJson?_toJson (h unit hunit) form
  rw [toJson, ofJson?, Json.fields?_obj, Option.bind_eq_bind, Option.bind_some]
  · dsimp only [List.map]
    rw [hunits]
    rfl
  · rfl
  · decide

theorem portable_of_ofJson? {form : Json.PayloadForm} {json : Json} {program : Program}
    (h : ofJson? form json = some program) : ∀ unit ∈ program.units, unit.Portable := by
  obtain ⟨fields, -, hread⟩ := Option.bind_eq_some_iff.mp h
  clear h
  split at hread
  · simp only [Option.bind_eq_bind, Option.bind_eq_some_iff, Option.pure_def,
      Option.some.injEq] at hread
    obtain ⟨units, hunits, rfl⟩ := hread
    exact Json.of_required (fun _ _ => Json.of_list? (SourceUnit.portable_of_ofJson? form)) hunits
  · cases hread

/-- A program reads back from what is written of it exactly if its numbers are finite and its
ids fit in 32 bits, and what has been read from any document is such a program. -/
theorem written_reads_back :
    (∀ (program : Program) (form : Json.PayloadForm),
      ofJson? form program.toJson = some program ↔
        (∀ x ∈ program.numbers, x.isFinite = true) ∧ ∀ id ∈ program.ids, id < 0x100000000) ∧
      ∀ (form : Json.PayloadForm) (json : Json) (program : Program),
        ofJson? form json = some program →
          ∀ form' : Json.PayloadForm, ofJson? form' program.toJson = some program := by
  constructor
  · intro program form
    rw [← portable_iff]
    exact ⟨portable_of_ofJson?, fun h => ofJson?_toJson h form⟩
  · intro form json program h form'
    exact ofJson?_toJson (portable_of_ofJson? h) form'

/-- A document with positional payloads that leaves out what may be missing, and its program. -/
theorem written_reads_back_positional :
    let program : Program := ⟨[⟨7, "main.js",
      [.function ⟨3, none, ["x"], [.ret none, .ifElse (.ident "x") [.breakTo none] none]⟩,
        .var .letVar "y" none, .expr (.assign (.ident "y") none (.number 0.5))]⟩]⟩
    let document : Json := .obj [("units", .arr [.obj [("id", .ofNat 7), ("name", .str "main.js"),
      ("body", .arr
        [.variant "Function" (.obj [("id", .ofNat 3), ("params", .strings ["x"]),
          ("body", .arr [.variant "Return" .null, .variant "If" (.arr
            [.variant "Ident" (.str "x"), .arr [.variant "Break" .null], .null])])]),
        .variant "Var" (.obj [("kind", .str "Let"), ("name", .str "y")]),
        .variant "Expr" (.variant "Assign" (.arr
          [.variant "Ident" (.str "y"), .null, .variant "Number" (.float 0.5)]))])]])]
    ofJson? .positional document = some program ∧ ofJson? .named document = none ∧
      ofJson? .named program.toJson = some program := by
  intro program document
  have hread : ofJson? .positional document = some program := by rfl
  exact ⟨hread, by rfl, written_reads_back.2 .positional document program hread .named⟩

end Program

end StaticInliner
