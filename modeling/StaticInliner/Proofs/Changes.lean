import StaticInliner.Proofs.Runs

/-!
The changed bodies of a run. A body that is not marked has the layer that it had at the
start; a marked one had in its layer, when some target was begun, a call that the table
of the target has a definition for. Both need that a copied literal is told from those
that were there: the new ids have to fit into their 32 bits.
-/
namespace StaticInliner

open ScopeTree

namespace Config

variable {program : Program}

/-- The bodies that are marked are those of the inlinings, also if the run had to stop. -/
theorem contains_changes_run (config : Config) (hvalid : program.validate = .ok ())
    (supply : IdSupply) (body : ChangedBody) :
    (config.run program supply).ctx.changes.contains body = true ↔
      ∃ i ∈ config.inlinings program supply, i.owner = body := by
  obtain ⟨reached, hreaches, -⟩ := config.led_run hvalid supply
  refine (hreaches.contains_changes (Run.grounded_start program supply) body).trans
    (or_iff_right ?_)
  exact Bool.false_ne_true

end Config

end StaticInliner
