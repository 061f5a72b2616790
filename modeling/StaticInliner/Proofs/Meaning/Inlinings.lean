import StaticInliner.Proofs.Meaning.Block
import StaticInliner.Proofs.Meaning.Direct
import StaticInliner.Proofs.Runs

/-!
What the inlinings of a run mean. At every inlining the names of the function and of the
arguments are reserved, so the code that takes the place of the call may take it; nothing has
to be assumed about the context.
-/
namespace StaticInliner

/-- At an inlining of a run, the names of the function and of the arguments are reserved. -/
theorem Config.reserves_inlining {config : Config} {program : Program} {supply : IdSupply}
    {i : Inlining} (h : i ∈ config.inlinings program supply) :
    i.before.Reserves (.expr (.function i.definition.function) :: i.args.map .expr) := by
  obtain ⟨hgrounded, hcovered, hperformed, -⟩ := Config.at_inlining h
  intro name hname
  rw [mem_writtenNames_iff_spelled] at hname
  change name ∈ Stmt.spelledAll _ at hname
  rw [← List.singleton_append, Stmt.spelledAll_append, List.mem_append,
    Stmt.spelledAll_map_expr] at hname
  rcases hname with hname | hname
  · refine hcovered i.definition hperformed.definition_mem name ?_
    rw [← List.map_singleton, Stmt.spelledAll_map_expr, List.flatMap_singleton] at hname
    exact hname
  · exact Inlining.reserved_args hgrounded name hname

namespace Meaning

variable {L : Language} {config : Config} {program : Program} {supply : IdSupply} {i : Inlining}
  (h : i ∈ config.inlinings program supply)
  (hown : ∀ name, i.definition.function.name = some name →
    mentions name i.definition.function.body = false)

include h hown

/-- Where a run has put an expression in the place of a call, it does what the call did. -/
theorem outcome_direct_inlining (hshape : i.expansion.shape = .direct)
    (hdelete : deletesVariable i.definition.function.body = false)
    (self calleeSelf : L.Value) (rounds : Nat) (old : String → L.Value) (world : World L) :
    outcome (eval (scopeView i.before.scopes i.site.scope self) i.expansion.value
      ⟨leftover i.expansion.prelude old, world⟩) =
    outcome (call (scopeView i.before.scopes i.site.scope self) i.before.scopes rounds
      i.definition.function calleeSelf i.args ⟨fun _ => none, world⟩) := by
  obtain ⟨-, -, hperformed, -⟩ := Config.at_inlining h
  obtain ⟨helig, ⟨expr, hexpr, hexpansion⟩ | ⟨-, -, hexpansion⟩⟩ := hperformed.expansion_cases
  · rw [hexpansion]
    exact outcome_direct_inline helig hexpr hown hdelete (Config.reserves_inlining h) self
      calleeSelf rounds old world
  · rw [hexpansion] at hshape
    cases hshape

/-- Where a run has put a block ahead of a call, the block and the read of its result do what
the call did, as often as they are run. -/
theorem outcome_block_inlining (hshape : i.expansion.shape = .block)
    (hfunction : containsFunction i.definition.function.body = false)
    (hjumps : jumpsInsideAll false [] i.definition.function.body = true)
    (hscope : inScopeAll (declaredNames i.definition.function.params i.definition.function.body)
      (bodyScope i.definition.function) i.definition.function.body = true)
    (self calleeSelf : L.Value) (rounds : Nat) (locals : Locals L)
    (hlocals : ∀ name ∈ i.before.names.reserved, locals name = none)
    (changes : List (World L → World L)) (world : World L) :
    outcome (repeatedly (spliced (scopeView i.before.scopes i.site.scope self) rounds i.expansion)
      changes ⟨locals, world⟩) =
    outcome (repeatedly (some <$> call (scopeView i.before.scopes i.site.scope self)
      i.before.scopes rounds i.definition.function calleeSelf i.args) changes
      ⟨fun _ => none, world⟩) := by
  obtain ⟨-, -, hperformed, -⟩ := Config.at_inlining h
  obtain ⟨helig, ⟨expr, -, hexpansion⟩ | ⟨-, hblock, hexpansion⟩⟩ := hperformed.expansion_cases
  · rw [hexpansion] at hshape
    cases hshape
  · rw [hexpansion]
    exact outcome_block_inline helig hblock hfunction hown hjumps hscope
      (Config.reserves_inlining h) self calleeSelf rounds locals hlocals changes world

end Meaning

end StaticInliner
