import ExprFront.Proofs.Token.Lossless

/-!
# Slices between characters

A text is sliced at byte offsets, which have to stand between two characters.
Every offset that a scan reaches does, because it counts the bytes of the
characters before it; so the spans of tokens and of lexical errors are slices
of the text.
-/

namespace ExprFront

/-- The byte offset stands between two characters of the text, or at one of its ends. -/
def IsBoundary (source : String) (offset : Nat) : Prop :=
  (⟨offset⟩ : String.Pos.Raw).IsValid source

/-- The span is that of a slice of the text. -/
structure Span.IsSlice (span : Span) (source : String) : Prop where
  start_le : span.start ≤ span.stop
  start_boundary : IsBoundary source span.start
  stop_boundary : IsBoundary source span.stop

theorem isBoundary_append
    (before later : String) : IsBoundary (before ++ later) before.utf8ByteSize :=
  String.Pos.Raw.isValid_iff_exists_append.mpr ⟨before, later, rfl, rfl⟩

theorem Span.isSlice_append
    (before inside later : String) :
    Span.IsSlice ⟨before.utf8ByteSize, (before ++ inside).utf8ByteSize⟩
      (before ++ inside ++ later) := by
  refine ⟨by simp, ?_, isBoundary_append (before ++ inside) later⟩
  rw [String.append_assoc]
  exact isBoundary_append before (inside ++ later)

/-- The place after some characters of a text is at a boundary of the text. -/
theorem isBoundary_advanceAll
    {source : String} {before later : List Char} (h : source.toList = before ++ later) :
    IsBoundary source (Cursor.origin.advanceAll before).offset := by
  have hplace : Cursor.origin.advanceAll before = Cursor.after (String.ofList before) :=
    Cursor.advanceAll_after "" before
  have hsource : source = String.ofList before ++ String.ofList later := by
    rw [← String.ofList_append, ← h, String.ofList_toList]
  rw [hplace, hsource]
  exact isBoundary_append _ _

theorem Token.Marks.isSlice
    {t : Token} {source : String} (h : t.Marks source) : t.span.IsSlice source := by
  obtain ⟨before, later, rfl, hspan, -, -⟩ := h
  rw [hspan, ← String.utf8ByteSize_append]
  exact Span.isSlice_append before t.literal later

/-- The characters that a fault is about are a slice of the text. -/
theorem LexFault.isSlice_locate
    (fault : LexFault) (before : String) (text : List Char) :
    (fault.locate (.after before) text).span.IsSlice (before ++ String.ofList text) := by
  have htext : before ++ String.ofList text =
      before ++ String.ofList (text.take fault.skipped) ++
        String.ofList ((text.drop fault.skipped).take fault.width) ++
        String.ofList ((text.drop fault.skipped).drop fault.width) := by
    rw [String.append_assoc, String.append_assoc, ← String.ofList_append, List.take_append_drop,
      ← String.ofList_append, List.take_append_drop]
  rw [htext, locate, Cursor.advanceAll_after, Cursor.advanceAll_after]
  exact Span.isSlice_append _ _ _

/-- Wherever a scan fails, the error is about a slice of the text. -/
theorem isSlice_of_scan_error
    {text : List Char} {place : Cursor} {tokens : Array Token} {e : LexError}
    (h : scan text place tokens = .error e) (before : String) (hplace : place = .after before) :
    e.span.IsSlice (before ++ String.ofList text) := by
  fun_induction scan text place tokens generalizing before with
  | case1 => cases h
  | case2 place tokens first rest fault _ =>
      cases h
      rw [hplace]
      exact fault.isSlice_locate before (first :: rest)
  | case3 place tokens first rest lexeme _ literal ih =>
      have hslice := ih h (before ++ String.ofList literal)
        (by rw [hplace, Cursor.advanceAll_after])
      have htext : literal ++ rest.drop lexeme.tail = first :: rest := by
        simp [literal]
      rwa [String.append_assoc, ← String.ofList_append, htext] at hslice

/-! ## Ranges of tokens -/

theorem isSlice_of_tokenize
    {source : String} {tokens : Array Token} (h : tokenize source = .ok tokens) :
    ∀ t ∈ tokens, t.span.IsSlice source := by
  intro t ht
  obtain ⟨pieces, hcut, rfl⟩ := tokenize_eq_ok_iff.mp h
  exact ((lossless_of_cut hcut).marks t (by simpa using ht)).isSlice

/-- Tokens start in the order in which they come. -/
theorem pairwise_of_tokenize
    {source : String} {tokens : Array Token} (h : tokenize source = .ok tokens) :
    (tokens.toList.map (·.span.start)).Pairwise (· ≤ ·) := by
  have hslices := isSlice_of_tokenize h
  obtain ⟨pieces, hcut, rfl⟩ := tokenize_eq_ok_iff.mp h
  apply List.IsChain.pairwise
  rw [List.isChain_map]
  refine List.IsChain.imp_of_mem_imp ?_ (lossless_of_cut hcut).contiguous
  intro t next ht _ hnext
  rw [hnext]
  exact (hslices t (by simpa using ht)).start_le

/-- The source of a range of tokens goes from the first to the last of them. -/
theorem isSlice_of_lex
    {source : String} {tokens : Array Token} (h : lex source = .ok tokens) {start stop : Nat}
    (hstart : start < stop) (hstop : stop ≤ tokens.size) :
    ∃ first last, tokens[start]? = some first ∧ tokens[stop - 1]? = some last ∧
      (⟨first.span.start, last.span.stop⟩ : Span).IsSlice source := by
  obtain ⟨pieces, hcut, htokens⟩ := lex_eq_ok_iff.mp h
  have hall := tokenize_eq_ok_iff.mpr ⟨pieces, hcut, rfl⟩
  have hkept : ∀ t ∈ tokens, t.span.IsSlice source := by
    rw [htokens]
    exact fun t ht => isSlice_of_tokenize hall t (Array.mem_filter.mp ht).1
  have hsorted : (tokens.toList.map (·.span.start)).Pairwise (· ≤ ·) := by
    rw [htokens, withoutTrivia, Array.toList_filter]
    exact (pairwise_of_tokenize hall).sublist (List.filter_sublist.map _)
  have hfirst := hkept _ (Array.getElem_mem (by omega : start < tokens.size))
  have hlast := hkept _ (Array.getElem_mem (by omega : stop - 1 < tokens.size))
  refine ⟨_, _, Array.getElem?_eq_getElem (by omega), Array.getElem?_eq_getElem (by omega), ?_,
    hfirst.start_boundary, hlast.stop_boundary⟩
  refine Nat.le_trans ?_ hlast.start_le
  rcases Nat.lt_or_eq_of_le (by omega : start ≤ stop - 1) with hlt | heq
  · have hle := List.pairwise_iff_getElem.mp hsorted start (stop - 1) (by simp; omega)
      (by simp; omega) hlt
    rwa [List.getElem_map, List.getElem_map] at hle
  · simp [heq]

/-- A text is sliced between its characters only. -/
structure SlicedBetween (source : String) : Prop where
  place : ∀ before later, source.toList = before ++ later →
    IsBoundary source (Cursor.origin.advanceAll before).offset
  token : ∀ tokens, tokenize source = .ok tokens → ∀ t ∈ tokens, t.span.IsSlice source
  range : ∀ tokens, lex source = .ok tokens → ∀ start stop, start < stop → stop ≤ tokens.size →
    ∃ first last, tokens[start]? = some first ∧ tokens[stop - 1]? = some last ∧
      (⟨first.span.start, last.span.stop⟩ : Span).IsSlice source
  error : ∀ e, tokenize source = .error e → e.span.IsSlice source

theorem slicedBetween
    (source : String) : SlicedBetween source := by
  refine ⟨fun _ _ => isBoundary_advanceAll, fun _ => isSlice_of_tokenize,
    fun _ hlex _ _ => isSlice_of_lex hlex, ?_⟩
  intro e herror
  simpa using isSlice_of_scan_error herror "" rfl

end ExprFront
