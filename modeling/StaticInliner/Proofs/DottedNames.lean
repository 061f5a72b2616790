import StaticInliner.Syntax.Tree

/-!
Three ways to a qualified name. A text is cut at its dots, a member chain is read from its
root on, and segments are appended to a name one by one. All of them refuse an empty segment,
so a text and the chain that it spells have the same name or none. A text is read back as
the name it was written from if no segment hides a dot.
-/
namespace StaticInliner

/-- A part of a text without a dot in it. What stands right before it and right after it is
a dot, or nothing. -/
def IsPiece (text piece : List Char) : Prop :=
  '.' ∉ piece ∧ ∃ before after, text = before ++ piece ++ after ∧
    (∀ c ∈ before.getLast?, c = '.') ∧ ∀ c ∈ after.head?, c = '.'

section Pieces

variable {text piece : List Char}

theorem splitDots_eq_splitOn (text : List Char) : splitDots text = text.splitOn '.' := by
  induction text with
  | nil => rfl
  | cons c rest ih =>
    rw [splitDots, ih, List.splitOn_cons_eq_if_modifyHead]
    by_cases hdot : c = '.'
    · rw [if_pos hdot, if_pos (beq_iff_eq.mpr hdot)]
    · obtain ⟨first, others, hpieces⟩ := List.exists_cons_of_ne_nil (List.splitOn_ne_nil '.' rest)
      rw [if_neg hdot, if_neg (fun h => hdot (beq_iff_eq.mp h)), hpieces]
      rfl

theorem notMem_of_mem_splitDots (h : piece ∈ splitDots text) : '.' ∉ piece := by
  fun_induction splitDots text generalizing piece with
  | case1 =>
    rw [List.mem_singleton.mp h]
    exact List.not_mem_nil
  | case2 rest ih =>
    rcases List.mem_cons.mp h with rfl | h
    · exact List.not_mem_nil
    · exact ih h
  | case3 c rest hdot hnil ih =>
    rw [List.mem_singleton.mp h]
    exact fun hmem => hdot (List.mem_singleton.mp hmem).symm
  | case4 c rest hdot first others hpieces ih =>
    rcases List.mem_cons.mp h with rfl | h
    · refine fun hmem => (List.mem_cons.mp hmem).elim (fun heq => hdot heq.symm) (ih ?_)
      rw [hpieces]
      exact List.mem_cons_self
    · refine ih ?_
      rw [hpieces]
      exact List.mem_cons_of_mem _ h

/-- One of the parts that are joined by dots. -/
theorem isPiece_intercalate {parts : List (List Char)} (hmem : piece ∈ parts) (hdot : '.' ∉ piece) :
    IsPiece (['.'].intercalate parts) piece := by
  refine ⟨hdot, ?_⟩
  induction parts with
  | nil => cases hmem
  | cons first rest ih =>
    by_cases hrest : rest = []
    · subst hrest
      obtain rfl := List.mem_singleton.mp hmem
      exact ⟨[], [], by simp, by simp, by simp⟩
    · rw [List.intercalate_cons_of_ne_nil hrest]
      rcases List.mem_cons.mp hmem with rfl | hmem
      · exact ⟨[], '.' :: ['.'].intercalate rest, by simp, by simp, by simp⟩
      · obtain ⟨before, after, heq, hbefore, hafter⟩ := ih hmem
        refine ⟨first ++ '.' :: before, after, by simp [heq], fun c hc => ?_, hafter⟩
        rw [List.getLast?_append, List.getLast?_cons, Option.some_or, Option.mem_some_iff] at hc
        subst hc
        cases hlast : before.getLast? with
        | none => rfl
        | some last => exact hbefore last hlast

/-- The pieces of a text are what it is cut into. -/
theorem mem_splitDots_iff : piece ∈ splitDots text ↔ IsPiece text piece := by
  constructor
  · intro hmem
    have hpiece := isPiece_intercalate hmem (notMem_of_mem_splitDots hmem)
    rwa [splitDots_eq_splitOn, List.intercalate_splitOn] at hpiece
  · rintro ⟨hdot, before, after, rfl, hbefore, hafter⟩
    have hrest : piece ∈ (piece ++ after).splitOn '.' := by
      cases after with
      | nil => simp [List.splitOn_eq_singleton hdot]
      | cons c after =>
        obtain rfl := hafter c rfl
        rw [List.splitOn_append_cons_self_of_not_mem hdot]
        exact List.mem_cons_self
    rw [splitDots_eq_splitOn, List.append_assoc]
    rcases before.eq_nil_or_concat with rfl | ⟨before, c, rfl⟩
    · exact hrest
    · rw [List.concat_eq_append] at hbefore ⊢
      obtain rfl := hbefore c List.getLast?_concat
      rw [List.append_assoc, List.singleton_append, List.splitOn_append_cons_self]
      exact List.mem_append_right _ hrest

end Pieces

namespace QualifiedName

theorem ofSegments?_eq_some_iff {segments : List String} {name : QualifiedName} :
    ofSegments? segments = some name ↔ name.segments = segments := by
  unfold ofSegments?
  constructor
  · intro h
    split at h
    · cases h
      rfl
    · cases h
  · rintro rfl
    exact dif_pos ⟨name.ne_nil, name.segment_ne⟩

/-- Appending a segment to what was made of others. -/
theorem bind_child? {segments : List String} (h : segments ≠ []) (segment : String) :
    (ofSegments? segments).bind (·.child? segment) = ofSegments? (segments ++ [segment]) := by
  cases hname : ofSegments? segments with
  | some name =>
    rw [Option.bind_some, child?, ofSegments?_eq_some_iff.mp hname]
  | none =>
    rw [Option.bind_none, eq_comm, Option.eq_none_iff_forall_ne_some]
    intro name hname'
    have hsegments := ofSegments?_eq_some_iff.mp hname'
    have hne (s : String) (hs : s ∈ segments) : s ≠ "" := by
      refine name.segment_ne s ?_
      rw [hsegments]
      exact List.mem_append_left _ hs
    have hmade : ofSegments? segments = some ⟨segments, h, hne⟩ := ofSegments?_eq_some_iff.mpr rfl
    cases hname.symm.trans hmade

/-- A text has the name made of its pieces, if any. -/
theorem toOption_parse (text : String) : (parse text).toOption = ofSegments? (pathPieces text) := by
  rw [parse]
  split
  · next hempty =>
    subst hempty
    rfl
  · split
    · next hname => exact hname.symm
    · next hnone => exact hnone.symm

theorem parse_eq_ok_iff {text : String} {name : QualifiedName} :
    parse text = .ok name ↔ name.segments = pathPieces text := by
  rw [← ofSegments?_eq_some_iff, ← toOption_parse]
  cases parse text with
  | ok found => simp [Except.toOption]
  | error fault => simp [Except.toOption]

/-- A text that is cut into pieces none of which is empty has a name. -/
theorem exists_parse_iff (text : String) :
    (∃ name, parse text = .ok name) ↔ ∀ piece ∈ splitDots text.toList, piece ≠ [] := by
  constructor
  · rintro ⟨name, hname⟩ piece hpiece rfl
    refine name.segment_ne "" ?_ rfl
    rw [parse_eq_ok_iff.mp hname]
    exact List.mem_map.mpr ⟨[], hpiece, rfl⟩
  · intro hpieces
    have hne : pathPieces text ≠ [] := by
      rw [pathPieces, splitDots_eq_splitOn]
      simp
    have hsegment (segment : String) (hsegment : segment ∈ pathPieces text) : segment ≠ "" := by
      rintro rfl
      obtain ⟨piece, hpiece, heq⟩ := List.mem_map.mp hsegment
      exact hpieces piece hpiece (String.ofList_injective heq)
    exact ⟨⟨pathPieces text, hne, hsegment⟩, parse_eq_ok_iff.mpr rfl⟩

theorem toList_pathPieces (text : String) :
    (pathPieces text).map String.toList = splitDots text.toList := by
  rw [pathPieces, List.map_map]
  exact List.map_id'' (fun _ => String.toList_ofList) _

/-- A name is written as a text exactly if the text is cut into its segments, unless a segment
has a dot in it. -/
theorem segments_eq_pathPieces_iff {text : String} {name : QualifiedName} :
    name.segments = pathPieces text ↔
      name.text = text ∧ ∀ segment ∈ name.segments, '.' ∉ segment.toList := by
  constructor
  · intro h
    constructor
    · rw [QualifiedName.text, h]
      apply String.toList_injective
      rw [String.toList_intercalate, toList_pathPieces, splitDots_eq_splitOn]
      exact List.intercalate_splitOn '.'
    · intro segment hsegment
      have hpiece : segment.toList ∈ splitDots text.toList := by
        rw [← toList_pathPieces, ← h]
        exact List.mem_map_of_mem hsegment
      exact notMem_of_mem_splitDots hpiece
  · rintro ⟨rfl, hdots⟩
    have hlists : splitDots name.text.toList = name.segments.map String.toList := by
      rw [QualifiedName.text, String.toList_intercalate, splitDots_eq_splitOn]
      refine List.splitOn_intercalate '.' ?_ ?_
      · simpa using hdots
      · simpa using name.ne_nil
    rw [pathPieces, hlists, List.map_map]
    exact (List.map_id'' (fun _ => String.ofList_toList) _).symm

end QualifiedName

namespace Expr

/-- A chain of members goes on with the segments it appends. -/
theorem qualifiedName?_foldl_member {e : Expr} {segments : List String} (hne : segments ≠ [])
    (h : e.qualifiedName? = QualifiedName.ofSegments? segments) (properties : List String) :
    (properties.foldl .member e).qualifiedName? =
      QualifiedName.ofSegments? (segments ++ properties) := by
  induction properties generalizing e segments with
  | nil => rw [List.foldl_nil, List.append_nil, h]
  | cons property rest ih =>
    have hnext : (Expr.member e property).qualifiedName? =
        QualifiedName.ofSegments? (segments ++ [property]) := by
      rw [qualifiedName?, h, QualifiedName.bind_child? hne]
    rw [List.foldl_cons, ih (List.append_ne_nil_of_left_ne_nil hne _) hnext, List.append_assoc]
    rfl

theorem qualifiedName?_ofPath (text : String) :
    (ofPath text).qualifiedName? = QualifiedName.ofSegments? (pathPieces text) := by
  rw [ofPath]
  split
  · next hnil =>
    rw [hnil]
    rfl
  · next root properties hpieces =>
    rw [hpieces]
    exact qualifiedName?_foldl_member (List.cons_ne_nil root []) rfl properties

end Expr

/-- A text can be read as a name exactly if it is not empty and no piece of it between dots
is. It then reads as the one name without dots in its segments that is written so, and this
is also the name of the chain that the text spells; a text that is no name spells a chain
without one. Hence a name is read back from its text unless a segment has a dot in it. -/
theorem QualifiedName.parse_agrees (text : String) (name : QualifiedName) :
    ((∃ found, parse text = .ok found) ↔
      text ≠ "" ∧ ∀ piece, IsPiece text.toList piece → piece ≠ []) ∧
    (parse text = .ok name ↔
      name.text = text ∧ ∀ segment ∈ name.segments, '.' ∉ segment.toList) ∧
    (Expr.ofPath text).qualifiedName? = (parse text).toOption ∧
    (parse name.text = .ok name ↔ ∀ segment ∈ name.segments, '.' ∉ segment.toList) := by
  refine ⟨?_, ?_, ?_, ?_⟩
  · simp only [exists_parse_iff, mem_splitDots_iff]
    refine ⟨fun h => ⟨?_, h⟩, fun h => h.2⟩
    rintro rfl
    exact h [] ⟨List.not_mem_nil, [], [], rfl, by simp, by simp⟩ rfl
  · rw [parse_eq_ok_iff, segments_eq_pathPieces_iff]
  · rw [Expr.qualifiedName?_ofPath, toOption_parse]
  · rw [parse_eq_ok_iff, segments_eq_pathPieces_iff]
    simp

end StaticInliner
