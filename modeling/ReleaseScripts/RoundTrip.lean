/-
ReleaseScripts/RoundTrip.lean

Reading the changelog that `format_changelog_from_prs` writes with
`parse_release_notes`, and aggregating it once more.

Design.  The rendering is a sequence of category blocks, a heading line and
one bullet per entry, each block followed by a blank line (`renderLines`).
Every collected entry is a non-empty stripped text on one line
(`entryText_of_mem_collected`), so the lines the parser reads of the
rendering are the blocks themselves (`visibleLines_renderChangelog`), as long
as cleaning removes nothing, that is, as long as the rendering holds no HTML
comment.  Scanning one block adds its category with its entries
(`scan_categoryBlock`); the blocks come in `categoryOrder`, which names each
category once (`scan_blocks`).

Collecting more PRs only appends to each category's list
(`collected_prefix_append`), so a changelog's blocks stay within the blocks of the
changelog of more PRs.

Main results: `visibleLines_formatChangelogFromPrs` (the changelog's non-blank
lines are its headings and bullets), `parseReleaseNotes_formatChangelogFromPrs`
and `visibleLines_formatChangelogFromPrs_sublist` (more PRs keep those lines).
-/
import Mathlib.Tactic.IntervalCases
import Mathlib.Data.Nat.Digits
import ReleaseScripts.Format

namespace ReleaseScripts

/-! ### Attributed entries stay on one line -/

theorem digitChar_ne_newline (d : Nat) : Nat.digitChar d ≠ '\n' := by
  rcases Nat.lt_or_ge d 16 with h | h
  · interval_cases d <;> decide
  · unfold Nat.digitChar
    iterate 16 rw [if_neg (by omega)]
    decide

theorem newline_not_mem_toDigitsCore (b : Nat) :
    ∀ (fuel n : Nat) (ds : List Char), '\n' ∉ ds → '\n' ∉ Nat.toDigitsCore b fuel n ds
  | 0, _, _, h => h
  | fuel + 1, n, ds, h => by
    have hd : '\n' ∉ Nat.digitChar (n % b) :: ds := by
      simp [Ne.symm (digitChar_ne_newline _), h]
    rw [Nat.toDigitsCore]
    split
    · exact hd
    · exact newline_not_mem_toDigitsCore b fuel _ _ hd

/-- `str(n)` of an integer holds no newline. -/
theorem newline_not_mem_toString (n : Int) : '\n' ∉ (toString n).toList := by
  cases n with
  | ofNat m => exact newline_not_mem_toDigitsCore 10 (m + 1) m [] (List.not_mem_nil _)
  | negSucc m =>
    show '\n' ∉ '-' :: Nat.toDigitsCore 10 (m + 2) (m + 1) []
    simpa using newline_not_mem_toDigitsCore 10 (m + 2) (m + 1) [] (List.not_mem_nil _)

/-- The fields the attribution copies into an entry hold no newline. -/
def PR.OneLine (pr : PR) : Prop :=
  '\n' ∉ pr.url ∧ '\n' ∉ pr.author ∧ '\n' ∉ pr.authorUrl

theorem PR.entryText_formatEntry {pr : PR} (hpr : pr.OneLine) {e : List Char}
    (he : EntryText e) : EntryText (pr.formatEntry e) := by
  unfold PR.formatEntry
  split
  · refine ⟨by simp [he.ne_nil], fun c hc => ?_, ?_⟩
    · rcases hc with hc | hc
      · simp only [List.append_assoc] at hc
        rw [List.head?_append_of_ne_nil _ he.ne_nil] at hc
        exact he.trimmed c (.inl hc)
      · rw [List.getLast?_append_of_ne_nil _ (by decide)] at hc
        cases hc
        rfl
    · have h₁ : '\n' ∉ " [".toList := by decide
      have h₂ : '\n' ∉ "](".toList := by decide
      have h₃ : '\n' ∉ ") [".toList := by decide
      have h₄ : '\n' ∉ ")".toList := by decide
      have href : '\n' ∉ pr.ref := by
        simpa [PR.ref] using newline_not_mem_toString pr.number
      simp only [List.mem_append, not_or]
      exact ⟨⟨⟨⟨⟨⟨⟨⟨⟨he.newline_not_mem, h₁⟩, href⟩, h₂⟩, hpr.1⟩, h₃⟩, hpr.2.1⟩, h₂⟩, hpr.2.2⟩, h₄⟩
  · exact he

theorem entryText_of_mem_contribution {pr : PR} (hpr : pr.OneLine) {c : Category}
    {x : List Char} (h : x ∈ contribution c pr) : EntryText x := by
  unfold contribution at h
  split at h
  · cases h
  · split at h
    · cases h
    · obtain ⟨e, he, rfl⟩ := List.mem_map.mp h
      exact pr.entryText_formatEntry hpr (entryText_of_mem_get he)

/-- Every collected entry is a non-empty stripped text on one line. -/
theorem entryText_of_mem_collected {prs : List PR} (hprs : ∀ pr ∈ prs, pr.OneLine)
    {c : Category} {x : List Char} (h : x ∈ collected prs c) : EntryText x := by
  obtain ⟨pr, hpr, hx⟩ := List.mem_flatMap.mp (mem_dedupKeepFirst.mp h)
  exact entryText_of_mem_contribution (hprs pr hpr) hx

/-! ### The lines of the rendering -/

/-- The lines of a rendering that hold something: its blocks, without the blank lines. -/
def renderedBlocks (L : Category → List (List Char)) : List (List Char) :=
  categoryOrder.flatMap fun c => if L c = [] then [] else categoryBlock c (L c)

theorem strip_heading (c : Category) : strip ("### ".toList ++ c.name) = "### ".toList ++ c.name := by
  cases c <;> decide

theorem newline_not_mem_heading (c : Category) : '\n' ∉ "### ".toList ++ c.name := by
  cases c <;> decide

theorem headingGroup_heading (c : Category) : headingGroup ("### ".toList ++ c.name) = some c.name := by
  cases c <;> decide

theorem strip_name (c : Category) : strip c.name = c.name := by
  cases c <;> decide

theorem trimmed_bullet {x : List Char} (hx : EntryText x) : Trimmed ("- ".toList ++ x) := by
  intro c hc
  rcases hc with hc | hc
  · cases hc
    rfl
  · rw [List.getLast?_append_of_ne_nil _ hx.ne_nil] at hc
    exact hx.trimmed c (.inr hc)

theorem strip_bullet {x : List Char} (hx : EntryText x) : strip ("- ".toList ++ x) = "- ".toList ++ x :=
  strip_of_trimmed (trimmed_bullet hx)

theorem ne_nil_of_mem_categoryBlock {c : Category} {xs : List (List Char)} {l : List Char}
    (h : l ∈ categoryBlock c xs) : l ≠ [] := by
  simp only [categoryBlock, List.mem_cons, List.mem_map] at h
  rcases h with rfl | ⟨x, -, rfl⟩ <;> simp

/-- A block and its blank line, as the parser sees them: the block. -/
theorem visible_categoryBlock {c : Category} {xs : List (List Char)}
    (hxs : ∀ x ∈ xs, EntryText x) :
    ((categoryBlock c xs ++ [[]]).map strip).filter (· ≠ []) = categoryBlock c xs := by
  have hmap : (categoryBlock c xs).map strip = categoryBlock c xs := by
    rw [categoryBlock, List.map_cons, strip_heading, List.map_map]
    exact congrArg _ (List.map_congr_left fun x hx => strip_bullet (hxs x hx))
  rw [List.map_append, hmap, List.filter_append, List.filter_eq_self.mpr fun l hl => by
    simpa using ne_nil_of_mem_categoryBlock hl]
  simp

section Render

variable {L : Category → List (List Char)} (hL : ∀ c, ∀ x ∈ L c, EntryText x)
include hL

theorem newline_not_mem_renderLines : ∀ l ∈ renderLines L, '\n' ∉ l := by
  intro l hl
  obtain ⟨c, -, hl⟩ := List.mem_flatMap.mp hl
  split at hl
  · cases hl
  · simp only [categoryBlock, List.cons_append, List.mem_cons, List.mem_append, List.mem_map,
      List.mem_singleton] at hl
    rcases hl with rfl | ⟨x, hx, rfl⟩ | hl
    · exact newline_not_mem_heading c
    · simpa using (hL c x hx).newline_not_mem
    · rcases hl with rfl | hl
      · exact List.not_mem_nil _
      · cases hl

/-- The parser's view of a rendering: its blocks. -/
theorem visibleLines_renderChangelog : visibleLines (renderChangelog L) = renderedBlocks L := by
  rw [renderChangelog, visibleLines_strip, visibleLines_join (newline_not_mem_renderLines hL),
    renderLines, renderedBlocks, List.map_flatMap, List.filter_flatMap]
  refine List.flatMap_congr fun c _ => ?_
  split
  · rfl
  · exact visible_categoryBlock (hL c)

end Render

/-! ### Scanning the rendering -/

theorem scanLine_heading (st : Scan) (c : Category) :
    scanLine st ("### ".toList ++ c.name) = ⟨st.categories.touch c, some c⟩ := by
  simp only [scanLine, strip_heading, headingGroup_heading]
  simp [strip_name]

theorem scanLine_bullet (d : Notes) (c : Category) {x : List Char} (hx : EntryText x) :
    scanLine ⟨d, some c⟩ ("- ".toList ++ x) = ⟨d.push c x, some c⟩ := by
  have hhead : headingGroup ("- ".toList ++ x) = none := headingGroup_eq_none_of_head (by simp)
  have hentry : strip ("- ".toList ++ x).tail = x := by
    show strip (' ' :: x) = x
    rw [strip_cons_of_isSpace (by decide : isSpace ' ' = true), strip_of_trimmed hx.trimmed]
  have hb : isBullet ("- ".toList ++ x) = true := rfl
  simp only [scanLine, strip_bullet hx, hhead, hb, hentry, if_neg hx.ne_nil, if_true]
  simp

/-- Appending to the last key's list. -/
theorem Notes.entries_push_last {d : Notes} {E : List (Category × List (List Char))} {c : Category}
    {ys : List (List Char)} (hd : d.entries = E ++ [(c, ys)]) (hc : c ∉ E.map Prod.fst)
    (x : List Char) : (d.push c x).entries = E ++ [(c, ys ++ [x])] := by
  simp only [Notes.push, hd, List.map_append, List.map_singleton, if_pos rfl]
  congr 1
  refine (List.map_congr_left fun ke hke => ?_).trans (List.map_id _)
  have : ke.1 ≠ c := fun h => hc (List.mem_map.mpr ⟨ke, hke, h⟩)
  simp [this]

theorem scan_bullets {c : Category} {E : List (Category × List (List Char))}
    (hc : c ∉ E.map Prod.fst) :
    ∀ (xs : List (List Char)), (∀ x ∈ xs, EntryText x) → ∀ (d : Notes) (ys : List (List Char)),
      d.entries = E ++ [(c, ys)] →
      ((xs.map ("- ".toList ++ ·)).foldl scanLine ⟨d, some c⟩).categories.entries =
        E ++ [(c, ys ++ xs)]
  | [], _, d, ys, hd => by simpa using hd
  | x :: xs, hxs, d, ys, hd => by
    rw [List.map_cons, List.foldl_cons, scanLine_bullet d c (hxs x (List.mem_cons_self _ _)),
      scan_bullets hc xs (fun y hy => hxs y (List.mem_cons_of_mem _ hy)) _ (ys ++ [x])
        (Notes.entries_push_last hd hc x)]
    simp

/-- **One block, one key**: a new category's block adds it with its entries. -/
theorem scan_categoryBlock {st : Scan} {c : Category} (hc : c ∉ st.categories.keys)
    {xs : List (List Char)} (hxs : ∀ x ∈ xs, EntryText x) :
    ((categoryBlock c xs).foldl scanLine st).categories.entries =
      st.categories.entries ++ [(c, xs)] := by
  have htouch : (st.categories.touch c).entries = st.categories.entries ++ [(c, [])] := by
    simp [Notes.touch, hc]
  rw [categoryBlock, List.foldl_cons, scanLine_heading]
  simpa using scan_bullets hc xs hxs _ [] htouch

/-- The blocks of distinct new categories, one after another. -/
theorem scan_blocks {L : Category → List (List Char)} (hL : ∀ c, ∀ x ∈ L c, EntryText x) :
    ∀ (cs : List Category), cs.Nodup → ∀ (st : Scan), (∀ c ∈ cs, c ∉ st.categories.keys) →
      ((cs.flatMap fun c => if L c = [] then [] else categoryBlock c (L c)).foldl scanLine st
        ).categories.entries =
        st.categories.entries ++ (cs.filter fun c => L c ≠ []).map fun c => (c, L c)
  | [], _, st, _ => by simp
  | c :: cs, hnd, st, hst => by
    have hnd' := List.nodup_cons.mp hnd
    rw [List.flatMap_cons, List.foldl_append]
    by_cases h : L c = []
    · rw [if_pos h, List.foldl_nil,
        scan_blocks hL cs hnd'.2 st fun c' hc' => hst c' (List.mem_cons_of_mem _ hc')]
      simp [h]
    · have he := scan_categoryBlock (hst c (List.mem_cons_self _ _)) (hL c)
      rw [if_neg h, scan_blocks hL cs hnd'.2 _ fun c' hc' => ?_, he]
      · simp [h]
      · show c' ∉ (List.foldl scanLine st (categoryBlock c (L c))).categories.entries.map Prod.fst
        rw [he, List.map_append, List.map_singleton, List.mem_append, List.mem_singleton, not_or]
        exact ⟨hst c' (List.mem_cons_of_mem _ hc'), fun e => hnd'.1 (by rw [← show c' = c from e]; exact hc')⟩

/-- A rendering with no HTML comment, read back: the parser returns the rendered
lists, in `categoryOrder`, the empty ones left out. -/
theorem parseReleaseNotes_renderChangelog {L : Category → List (List Char)}
    (hL : ∀ c, ∀ x ∈ L c, EntryText x) (hc : ¬HasComment (renderChangelog L)) :
    (parseReleaseNotes (renderChangelog L)).entries =
      (categoryOrder.filter fun c => L c ≠ []).map fun c => (c, L c) := by
  have hlines : contentLines (renderChangelog L) = renderedBlocks L := by
    rw [contentLines_eq, commentPattern_sub_of_not_hasComment hc, visibleLines_renderChangelog hL]
  rw [parseReleaseNotes_eq_foldl, hlines, renderedBlocks,
    scan_blocks hL categoryOrder (by decide) _ (by simp)]
  rfl

/-! ### Aggregating the rendering again -/

theorem lookup_map_pair (L : Category → List (List Char)) (c : Category) :
    ∀ cs : List Category,
      (cs.map fun c => (c, L c)).lookup c = if c ∈ cs then some (L c) else none
  | [] => rfl
  | c' :: cs => by
    by_cases h : c = c'
    · subst h
      simp
    · simp [List.lookup_cons, (beq_eq_false_iff_ne).mpr h, h, lookup_map_pair L c cs]

theorem mem_categoryOrder (c : Category) : c ∈ categoryOrder := by
  cases c <;> decide

/-- What the parser reads back under `c` is the rendered list itself. -/
theorem get_parseReleaseNotes_renderChangelog {L : Category → List (List Char)}
    (hL : ∀ c, ∀ x ∈ L c, EntryText x) (hc : ¬HasComment (renderChangelog L)) (c : Category) :
    (parseReleaseNotes (renderChangelog L)).get c = L c := by
  rw [Notes.get, parseReleaseNotes_renderChangelog hL hc, lookup_map_pair]
  by_cases h : L c = []
  · simp [h]
  · simp [h, mem_categoryOrder]

theorem cleanContent_eq_join (content : List Char) :
    cleanContent content = join (contentLines content) := by
  rw [contentLines_eq]
  exact cleanContent_eq content

/-- A rendering starts with `#`, so it never reads as the opt-out `NONE`. -/
theorem isOptOut_renderChangelog {L : Category → List (List Char)}
    (hL : ∀ c, ∀ x ∈ L c, EntryText x) (hc : ¬HasComment (renderChangelog L)) :
    isOptOut (renderChangelog L) = false := by
  have hhead : ∀ cs : List Category,
      (cs.flatMap fun c => if L c = [] then [] else categoryBlock c (L c)) = [] ∨
        ∃ (c : Category) (rest : List (List Char)),
          (cs.flatMap fun c => if L c = [] then [] else categoryBlock c (L c)) =
          ("### ".toList ++ c.name) :: rest := by
    intro cs
    induction cs with
    | nil => exact .inl rfl
    | cons c cs ih =>
      by_cases h : L c = []
      · simpa [h] using ih
      · exact .inr ⟨c, _, by rw [List.flatMap_cons, if_neg h, categoryBlock, List.cons_append]⟩
  rw [isOptOut, cleanContent_eq_join, contentLines_eq, commentPattern_sub_of_not_hasComment hc,
    visibleLines_renderChangelog hL, renderedBlocks]
  rcases hhead categoryOrder with h | ⟨c, rest, h⟩
  · rw [h]
    rfl
  · rw [h, join_cons, Bool.eq_false_iff]
    intro he
    have := congrArg List.head? (beq_iff_eq.mp he)
    simp at this

/-- Aggregating one PR whose section is its own aggregated output gives that output
back: its entries are attributed already and are not attributed again. -/
theorem formatChangelogFromPrs_single_again {pr : PR} (hpr : pr.OneLine)
    (hc : ¬HasComment (formatChangelogFromPrs [pr])) {body : List Char}
    (hb : extractReleaseNotesSection body = some (formatChangelogFromPrs [pr])) :
    formatChangelogFromPrs [{ pr with body := body }] = formatChangelogFromPrs [pr] := by
  have hL : ∀ c, ∀ x ∈ collected [pr] c, EntryText x := fun c x hx =>
    entryText_of_mem_collected (by simpa using hpr) hx
  rw [formatChangelogFromPrs_eq_renderChangelog] at hc hb
  rw [formatChangelogFromPrs_eq_renderChangelog, formatChangelogFromPrs_eq_renderChangelog]
  congr 1
  funext c
  have hfix : (collected [pr] c).map pr.formatEntry = collected [pr] c := by
    refine (List.map_congr_left fun x hx => ?_).trans (List.map_id _)
    obtain ⟨pr', hpr', hx⟩ := List.mem_flatMap.mp (mem_dedupKeepFirst.mp hx)
    rw [List.mem_singleton.mp hpr'] at hx
    unfold contribution at hx
    split at hx
    · cases hx
    · split at hx
      · cases hx
      · obtain ⟨e, -, rfl⟩ := List.mem_map.mp hx
        exact pr.formatEntry_formatEntry e
  have hcon : contribution c { pr with body := body } = collected [pr] c := by
    simp only [contribution, hb, isOptOut_renderChangelog hL hc,
      get_parseReleaseNotes_renderChangelog hL hc]
    exact hfix
  rw [collected, List.flatMap_singleton, hcon, collected,
    dedupKeepFirst_of_nodup (nodup_dedupKeepFirst _)]

/-- **The rendered changelog reads back as what was collected**, when the
attribution fields hold no newline and the rendering holds no HTML comment:
`parse_release_notes` returns each non-empty collected list under its category, in
`category_order`; and aggregating a single PR whose section is its own output gives
that output again. -/
theorem parseReleaseNotes_formatChangelogFromPrs :
    (∀ prs : List PR, (∀ pr ∈ prs, pr.OneLine) → ¬HasComment (formatChangelogFromPrs prs) →
      (parseReleaseNotes (formatChangelogFromPrs prs)).entries =
        (categoryOrder.filter fun c => collected prs c ≠ []).map fun c => (c, collected prs c)) ∧
    ∀ pr : PR, pr.OneLine → ¬HasComment (formatChangelogFromPrs [pr]) →
      ∀ body, extractReleaseNotesSection body = some (formatChangelogFromPrs [pr]) →
        formatChangelogFromPrs [{ pr with body := body }] = formatChangelogFromPrs [pr] := by
  refine ⟨fun prs hprs hc => ?_, fun pr hpr hc body hb => formatChangelogFromPrs_single_again hpr hc hb⟩
  rw [formatChangelogFromPrs_eq_renderChangelog] at hc ⊢
  exact parseReleaseNotes_renderChangelog (fun c x hx => entryText_of_mem_collected hprs hx) hc

/-- The rendering of collected entries of one-line PRs has its headings and
bullets as its non-blank lines. -/
theorem visibleLines_renderChangelog_collected {prs : List PR} (hprs : ∀ pr ∈ prs, pr.OneLine) :
    visibleLines (renderChangelog (collected prs)) = renderedBlocks (collected prs) :=
  visibleLines_renderChangelog fun _ _ hx => entryText_of_mem_collected hprs hx

/-- **The changelog's lines are its headings and bullets.**  For PRs whose URL and
author fields hold no newline, the non-blank lines of the changelog are, in
`category_order`, each non-empty category's `### <Category>` heading followed by one
`- <entry>` line per collected entry: no entry spills over a line or merges with
another. -/
theorem visibleLines_formatChangelogFromPrs {prs : List PR} (hprs : ∀ pr ∈ prs, pr.OneLine) :
    visibleLines (formatChangelogFromPrs prs) = renderedBlocks (collected prs) := by
  rw [formatChangelogFromPrs_eq_renderChangelog]
  exact visibleLines_renderChangelog_collected hprs

theorem visibleLines_formatChangelogFromPrs_one_pr :
    visibleLines (formatChangelogFromPrs
      [⟨7, "u".toList, "al".toList, "v".toList, "## Release Notes\n### Fixed\n- x".toList⟩]) =
      renderedBlocks (collected
        [⟨7, "u".toList, "al".toList, "v".toList, "## Release Notes\n### Fixed\n- x".toList⟩]) :=
  visibleLines_formatChangelogFromPrs (by simp [PR.OneLine])

/-! ### Formatting more PRs -/

/-- Collecting more PRs only appends to each category's list. -/
theorem collected_prefix_append (prs more : List PR) (c : Category) :
    collected prs c <+: collected (prs ++ more) c := by
  rw [collected, collected, List.flatMap_append]
  exact dedupKeepFirst_prefix_append _ _

theorem categoryBlock_sublist (c : Category) {xs ys : List (List Char)} (h : xs <+: ys) :
    (categoryBlock c xs).Sublist (categoryBlock c ys) :=
  (h.map _).sublist.cons₂ _

theorem flatMap_sublist_flatMap {f g : Category → List (List Char)}
    (h : ∀ c, (f c).Sublist (g c)) : ∀ cs : List Category, (cs.flatMap f).Sublist (cs.flatMap g)
  | [] => List.Sublist.slnil
  | c :: cs => by
    simpa only [List.flatMap_cons] using (h c).append (flatMap_sublist_flatMap h cs)

theorem renderedBlocks_sublist {L L' : Category → List (List Char)} (h : ∀ c, L c <+: L' c) :
    (renderedBlocks L).Sublist (renderedBlocks L') := by
  refine flatMap_sublist_flatMap (fun c => ?_) categoryOrder
  by_cases hc : L c = []
  · rw [if_pos hc]
    exact List.nil_sublist _
  · have hc' : L' c ≠ [] := fun h' => hc (List.prefix_nil.mp (h' ▸ h c))
    rw [if_neg hc, if_neg hc']
    exact categoryBlock_sublist c (h c)

/-- **Formatting more PRs keeps the changelog of the first ones.**  For PRs whose
URL and author fields hold no newline, the non-blank lines of the changelog of
`prs` all stay, in their order, among those of the changelog of `prs ++ more`: the
later PRs only add headings and bullets. -/
theorem visibleLines_formatChangelogFromPrs_sublist {prs more : List PR}
    (h : ∀ pr ∈ prs ++ more, pr.OneLine) :
    (visibleLines (formatChangelogFromPrs prs)).Sublist
      (visibleLines (formatChangelogFromPrs (prs ++ more))) := by
  rw [formatChangelogFromPrs_eq_renderChangelog, formatChangelogFromPrs_eq_renderChangelog,
    visibleLines_renderChangelog_collected fun pr hpr => h pr (List.mem_append_left _ hpr),
    visibleLines_renderChangelog_collected h]
  exact renderedBlocks_sublist (collected_prefix_append prs more)

theorem visibleLines_formatChangelogFromPrs_sublist_two_prs :
    (visibleLines (formatChangelogFromPrs
      [⟨7, "u".toList, "al".toList, "v".toList, "## Release Notes\n### Fixed\n- x".toList⟩])).Sublist
      (visibleLines (formatChangelogFromPrs
        ([⟨7, "u".toList, "al".toList, "v".toList, "## Release Notes\n### Fixed\n- x".toList⟩] ++
          [⟨8, "w".toList, "bo".toList, "z".toList, "## Release Notes\n### Added\n- y".toList⟩]))) :=
  visibleLines_formatChangelogFromPrs_sublist (by simp [PR.OneLine])

/-- One PR with one entry: the rendering reads back, and aggregating it again gives it back. -/
theorem parseReleaseNotes_formatChangelogFromPrs_one_pr :
    (parseReleaseNotes (formatChangelogFromPrs
      [⟨7, "u".toList, "al".toList, "v".toList, "## Release Notes\n### Fixed\n- x".toList⟩])).entries =
      [(.fixed, ["x [#7](u) [al](v)".toList])] ∧
    formatChangelogFromPrs
      [⟨7, "u".toList, "al".toList, "v".toList, "## Release Notes\n### Fixed\n- x [#7](u) [al](v)".toList⟩] =
      formatChangelogFromPrs
        [⟨7, "u".toList, "al".toList, "v".toList, "## Release Notes\n### Fixed\n- x".toList⟩] :=
  ⟨(parseReleaseNotes_formatChangelogFromPrs.1 _ (by simp [PR.OneLine])
      (not_hasComment_of_not_mem (by decide))).trans (by decide),
    parseReleaseNotes_formatChangelogFromPrs.2 ⟨7, "u".toList, "al".toList, "v".toList,
      "## Release Notes\n### Fixed\n- x".toList⟩ (by simp [PR.OneLine])
      (not_hasComment_of_not_mem (by decide)) _ (by decide)⟩

/-- An entry left with an unterminated `<!--` and a later entry holding `-->`: cleaning
the rendering deletes the text between them, so two collected entries read back as
one that neither PR wrote. -/
theorem parseReleaseNotes_formatChangelogFromPrs_comment_across_entries :
    (parseReleaseNotes (formatChangelogFromPrs
      [⟨1, "u1".toList, "a".toList, "v1".toList, "## Release Notes\n### Fixed\n- a <!-- b".toList⟩,
       ⟨2, "u2".toList, "a".toList, "v2".toList, "## Release Notes\n### Fixed\n- c --> d".toList⟩])).entries =
      [(.fixed, ["a  d [#2](u2) [a](v2)".toList])] ∧
    collected
      [⟨1, "u1".toList, "a".toList, "v1".toList, "## Release Notes\n### Fixed\n- a <!-- b".toList⟩,
       ⟨2, "u2".toList, "a".toList, "v2".toList, "## Release Notes\n### Fixed\n- c --> d".toList⟩]
      .fixed = ["a <!-- b [#1](u1) [a](v1)".toList, "c --> d [#2](u2) [a](v2)".toList] := by
  decide

end ReleaseScripts
