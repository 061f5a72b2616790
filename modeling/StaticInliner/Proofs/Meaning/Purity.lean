import StaticInliner.Proofs.Meaning.Expression

/-!
An expression without side effects, evaluated where no variable is private, has
a value and leaves the state as it is.
-/
namespace StaticInliner.Meaning

variable {L : Language} {view : View L} {s t : State L}

theorem bind_ok {m : Exec L α} {f : α → Exec L β} {a : α} (h : m s = .ok a t) :
    (m >>= f) s = f a t := by
  change EStateM.bind m f s = f a t
  simp only [EStateM.bind, h]

theorem Ref.exists_get (view : View L) (hs : ∀ name, s.locals name = none) (r : Ref L.Value) :
    ∃ v, r.get view s = .ok v s := by
  cases r with
  | value v => exact ⟨v, rfl⟩
  | «variable» name => exact ⟨s.world.store.read (view.reach name), by simp [Ref.get, hs name]⟩
  | member object property => exact ⟨L.member object property s.world.store, rfl⟩
  | element object key => exact ⟨L.element object key s.world.store, rfl⟩

theorem exists_eval_of_refer (hs : ∀ name, s.locals name = none) {e : Expr}
    (h : ∃ r, refer view e s = .ok r s) : ∃ v, eval view e s = .ok v s := by
  obtain ⟨r, hr⟩ := h
  obtain ⟨v, hv⟩ := r.exists_get view hs
  exact ⟨v, by rw [eval, bind_ok hr, hv]⟩

mutual

theorem exists_refer (hs : ∀ name, s.locals name = none) : ∀ e : Expr,
    e.hasSideEffects = false → ∃ r, refer view e s = .ok r s
  | .undefined, _ | .null, _ | .bool _, _ | .number _, _ | .string _, _ | .ident _, _
  | .this, _ | .function _, _ => ⟨_, by rw [refer]; rfl⟩
  | .call _ _, h | .new _ _, h | .assign _ _ _, h => by simp [Expr.hasSideEffects] at h
  | .member object property, h => by
    rw [Expr.hasSideEffects] at h
    obtain ⟨v, hv⟩ := exists_eval_of_refer hs (exists_refer hs object h)
    exact ⟨_, by rw [refer, bind_ok hv]; rfl⟩
  | .index object key, h => by
    rw [Expr.hasSideEffects, Bool.or_eq_false_iff] at h
    obtain ⟨v, hv⟩ := exists_eval_of_refer hs (exists_refer hs object h.1)
    obtain ⟨w, hw⟩ := exists_eval_of_refer hs (exists_refer hs key h.2)
    exact ⟨_, by rw [refer, bind_ok hv, bind_ok hw]; rfl⟩
  | .binary op left right, h => by
    rw [Expr.hasSideEffects, Bool.or_eq_false_iff] at h
    obtain ⟨v, hv⟩ := exists_eval_of_refer hs (exists_refer hs left h.1)
    obtain ⟨w, hw⟩ := exists_eval_of_refer hs (exists_refer hs right h.2)
    exact ⟨_, by rw [refer, bind_ok hv, bind_ok hw]; rfl⟩
  | .logical op left right, h => by
    rw [Expr.hasSideEffects, Bool.or_eq_false_iff] at h
    obtain ⟨v, hv⟩ := exists_eval_of_refer hs (exists_refer hs left h.1)
    obtain ⟨w, hw⟩ := exists_eval_of_refer hs (exists_refer hs right h.2)
    rw [refer, bind_ok hv]
    split
    · exact ⟨_, by rw [bind_ok hw]; rfl⟩
    · exact ⟨_, rfl⟩
  | .unary op operand, h => by
    cases op with
    | delete => simp [Expr.hasSideEffects] at h
    | _ =>
      simp only [Expr.hasSideEffects] at h
      obtain ⟨v, hv⟩ := exists_eval_of_refer hs (exists_refer hs operand h)
      exact ⟨_, by simp only [refer]; rw [bind_ok hv]; rfl⟩
  | .conditional condition thenExpr elseExpr, h => by
    simp only [Expr.hasSideEffects, Bool.or_eq_false_iff] at h
    obtain ⟨v, hv⟩ := exists_eval_of_refer hs (exists_refer hs condition h.1.1)
    obtain ⟨w, hw⟩ := exists_eval_of_refer hs (exists_refer hs thenExpr h.1.2)
    obtain ⟨u, hu⟩ := exists_eval_of_refer hs (exists_refer hs elseExpr h.2)
    rw [refer, bind_ok hv]
    split
    · exact ⟨_, by rw [bind_ok hw]; rfl⟩
    · exact ⟨_, by rw [bind_ok hu]; rfl⟩
  | .sequence items, h | .array items, h => by
    rw [Expr.hasSideEffects] at h
    obtain ⟨vs, hvs⟩ := exists_evalAll hs items h
    exact ⟨_, by rw [refer, bind_ok hvs]; rfl⟩

theorem exists_evalAll (hs : ∀ name, s.locals name = none) : ∀ es : List Expr,
    Expr.anySideEffects es = false → ∃ vs, evalAll view es s = .ok vs s
  | [], _ => ⟨[], by rw [evalAll]; rfl⟩
  | e :: rest, h => by
    rw [Expr.anySideEffects, Bool.or_eq_false_iff] at h
    obtain ⟨v, hv⟩ := exists_eval_of_refer hs (exists_refer hs e h.1)
    obtain ⟨vs, hvs⟩ := exists_evalAll hs rest h.2
    exact ⟨v :: vs, by rw [evalAll, bind_ok hv, bind_ok hvs]; rfl⟩

end

theorem exists_eval (view : View L) (hs : ∀ name, s.locals name = none) {e : Expr}
    (h : e.hasSideEffects = false) : ∃ v, eval view e s = .ok v s :=
  exists_eval_of_refer hs (exists_refer hs e h)

end StaticInliner.Meaning
