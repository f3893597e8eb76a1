/-
ReleaseScripts/Unreleased.lean

The Unreleased heading `## \[Unreleased\]\s*\n`, read declaratively, and its
search in the text `update_changelog` writes.

Design.  A match is `unreleasedHeading ws`: `## [Unreleased]`, a run `ws` of
white space, and a newline, where the greedy `\s*` gives back only the one
newline `\n` needs, so no newline is left in the white space after the match
(`unreleasedPattern_matchHere_eq_some`).  Such a match never reads past a `##`,
and one that starts before a `##` is the same match before any other text opening
with `##` (`unreleasedPattern_matchHere_append_right`).  No Unreleased heading
starts inside a new section whose version holds no `]`: the one `]` of its
header is followed by ` - `, not by white space.  The converse locality holds for
version headers: a header match ends before an Unreleased heading, since only a
`]` followed by ` - ` ends a version (`versionPattern_localTo_unreleased`).

Main results: `unreleasedPattern_search_insert` (a section inserted past the
Unreleased match, before a `##`, leaves the search's answer as it was) and
`unreleasedPattern_search_insert_after` (a newline and a section inserted right
after the Unreleased match lengthen the match by that newline).
-/
import ReleaseScripts.Headers
import ReleaseScripts.Matches
import ReleaseScripts.Clean

namespace ReleaseScripts

/-! ### The Unreleased heading, declaratively -/

/-- The text the Unreleased pattern reads: `## [Unreleased]`, a run `ws` of white
space, and a newline. -/
def unreleasedHeading (ws : List Char) : List Char :=
  "## [Unreleased]".toList ++ ws ++ ['\n']

theorem unreleasedHeading_append (ws x : List Char) :
    unreleasedHeading ws ++ x = "## [Unreleased]".toList ++ ws ++ '\n' :: x := by
  simp [unreleasedHeading]

theorem closeNewline_eq_some {q : Option Char} {cs : List Char} {g : Option (List Char)} {rest : List Char}
    (h : closeNewline q cs = some (g, rest)) : g = none ∧ cs = '\n' :: rest := by
  obtain ⟨rest', rfl, h'⟩ := Re.run_lit_sound ['\n'] h
  cases h'
  exact ⟨rfl, rfl⟩

/-- `\s*\n` matches a run of white space ending in a newline. -/
theorem repRun_spaces_newline_isSome (rest : List Char) :
    ∀ (ws : List Char) (q : Option Char), (∀ c ∈ ws, isSpace c) →
      (repRun isSpace true closeNewline 0 q (ws ++ '\n' :: rest)).isSome
  | [], q, _ => by simp [repRun]
  | c :: ws, q, h => by
    rw [List.cons_append, repRun, if_pos (h c (List.mem_cons_self _ _))]
    simpa using Or.inl (repRun_spaces_newline_isSome rest ws (some c)
      fun d hd => h d (List.mem_cons_of_mem _ hd))

theorem exists_of_newline_mem_takeWhile {cs : List Char} (h : '\n' ∈ cs.takeWhile isSpace) :
    ∃ ws t, cs = ws ++ '\n' :: t ∧ ∀ c ∈ ws, isSpace c := by
  obtain ⟨ws, t, ht⟩ := List.append_of_mem h
  refine ⟨ws, t ++ cs.dropWhile isSpace, ?_, fun c hc => ?_⟩
  · calc cs = cs.takeWhile isSpace ++ cs.dropWhile isSpace := (List.takeWhile_append_dropWhile _ _).symm
      _ = _ := by rw [ht]; simp
  · exact List.mem_takeWhile_imp (ht ▸ List.mem_append_left _ hc : c ∈ cs.takeWhile isSpace)

/-- The greedy `\s*\n` takes the last newline of the white space: none is left in
the white space after the match. -/
theorem repRun_spaces_newline_eq_some {g : Option (List Char)} {rest : List Char} :
    ∀ {q : Option Char} {cs : List Char}, repRun isSpace true closeNewline 0 q cs = some (g, rest) →
      g = none ∧ ∃ ws, cs = ws ++ '\n' :: rest ∧ (∀ c ∈ ws, isSpace c) ∧ '\n' ∉ rest.takeWhile isSpace
  | q, [], h => by
    simp only [repRun, if_true] at h
    cases (closeNewline_eq_some h).2
  | q, c :: cs, h => by
    rw [repRun] at h
    by_cases hc : isSpace c
    · simp only [hc, if_true, Option.or_eq_some] at h
      rcases h with hmore | ⟨hmore, hstop⟩
      · obtain ⟨rfl, ws, rfl, hws, hmax⟩ := repRun_spaces_newline_eq_some hmore
        exact ⟨rfl, c :: ws, rfl, List.forall_mem_cons.mpr ⟨hc, hws⟩, hmax⟩
      · obtain ⟨rfl, hcs⟩ := closeNewline_eq_some hstop
        obtain ⟨rfl, rfl⟩ := List.cons.inj hcs
        refine ⟨rfl, [], rfl, by simp, fun hmem => ?_⟩
        obtain ⟨ws, t, rfl, hws⟩ := exists_of_newline_mem_takeWhile hmem
        simpa [hmore] using repRun_spaces_newline_isSome t ws (some '\n') hws
    · simp only [hc, if_false, if_true, Option.none_or] at h
      cases (List.cons.inj (closeNewline_eq_some h).2).1
      exact absurd rfl hc

/-- **The Unreleased heading, declaratively**: `## [Unreleased]`, a run of white
space, and the run's last newline. -/
theorem unreleasedPattern_matchHere_eq_some {prev : Option Char} {cs : List Char}
    {g : Option (List Char)} {rest : List Char}
    (h : unreleasedPattern.matchHere prev cs = some (g, rest)) :
    g = none ∧ ∃ ws, cs = unreleasedHeading ws ++ rest ∧ (∀ c ∈ ws, isSpace c) ∧
      '\n' ∉ rest.takeWhile isSpace := by
  obtain ⟨cs', rfl, h₁⟩ := Re.run_lit_sound "## [Unreleased]".toList h
  obtain ⟨rfl, ws, rfl, hws, hmax⟩ := repRun_spaces_newline_eq_some h₁
  exact ⟨rfl, ws, by simp [unreleasedHeading], hws, hmax⟩

theorem unreleasedPattern_matchHere_isSome (prev : Option Char) {ws : List Char} (rest : List Char)
    (hws : ∀ c ∈ ws, isSpace c) :
    (unreleasedPattern.matchHere prev (unreleasedHeading ws ++ rest)).isSome := by
  rw [unreleasedHeading_append, List.append_assoc, unreleasedPattern, Re.matchHere, Re.run_seq,
    Re.run_lit_append]
  exact repRun_spaces_newline_isSome rest ws _ hws

theorem newline_mem_takeWhile {ws : List Char} (hws : ∀ c ∈ ws, isSpace c) (t : List Char) :
    '\n' ∈ (ws ++ '\n' :: t).takeWhile isSpace := by
  simp [List.takeWhile_append_of_pos hws]

/-- A run of white space up to its last newline is the run's longest such prefix. -/
theorem spaces_newline_inj {ws ws' rest rest' : List Char} (hws : ∀ c ∈ ws, isSpace c)
    (hws' : ∀ c ∈ ws', isSpace c) (hmax : '\n' ∉ rest.takeWhile isSpace)
    (hmax' : '\n' ∉ rest'.takeWhile isSpace) (h : ws ++ '\n' :: rest = ws' ++ '\n' :: rest') :
    rest = rest' := by
  rcases List.append_eq_append_iff.mp h with ⟨a, rfl, h'⟩ | ⟨c, rfl, h'⟩
  · rcases a with _ | ⟨d, a⟩
    · exact (List.cons.inj h').2
    · obtain ⟨rfl, rfl⟩ := List.cons.inj h'
      exact absurd (newline_mem_takeWhile (fun c hc => hws' c (by simp [hc])) rest') hmax
  · rcases c with _ | ⟨d, c⟩
    · exact (List.cons.inj h').2.symm
    · obtain ⟨rfl, rfl⟩ := List.cons.inj h'.symm
      exact absurd (newline_mem_takeWhile (fun c hc => hws c (by simp [hc])) rest) hmax'

theorem unreleasedPattern_matchHere_inj {prev prev' : Option Char} {cs : List Char} {m m' : Res}
    (h : unreleasedPattern.matchHere prev cs = some m) (h' : unreleasedPattern.matchHere prev' cs = some m') :
    m = m' := by
  obtain ⟨g, rest⟩ := m
  obtain ⟨g', rest'⟩ := m'
  obtain ⟨rfl, ws, rfl, hws, hmax⟩ := unreleasedPattern_matchHere_eq_some h
  obtain ⟨rfl, ws', hcs, hws', hmax'⟩ := unreleasedPattern_matchHere_eq_some h'
  rw [unreleasedHeading_append, unreleasedHeading_append, List.append_assoc, List.append_assoc,
    List.append_cancel_left_eq] at hcs
  rw [spaces_newline_inj hws hws' hmax hmax' hcs]

/-- The Unreleased pattern has no anchor: the character before the cursor does not matter. -/
theorem unreleasedPattern_matchHere_prev (prev prev' : Option Char) (cs : List Char) :
    unreleasedPattern.matchHere prev cs = unreleasedPattern.matchHere prev' cs := by
  cases h : unreleasedPattern.matchHere prev cs with
  | none =>
    cases h' : unreleasedPattern.matchHere prev' cs with
    | none => rfl
    | some m' =>
      obtain ⟨-, ws, rfl, hws, -⟩ := unreleasedPattern_matchHere_eq_some h'
      have hs := unreleasedPattern_matchHere_isSome prev m'.2 hws
      rw [h] at hs
      cases hs
  | some m =>
    obtain ⟨-, ws, rfl, hws, -⟩ := unreleasedPattern_matchHere_eq_some h
    obtain ⟨m', h'⟩ := Option.isSome_iff_exists.mp (unreleasedPattern_matchHere_isSome prev' _ hws)
    rw [h', unreleasedPattern_matchHere_inj h h']

theorem unreleasedPattern_matchHere_eq_none_of_not_open {prev : Option Char} {cs : List Char}
    (h : ¬ "## [".toList <+: cs) : unreleasedPattern.matchHere prev cs = none := by
  cases hm : unreleasedPattern.matchHere prev cs with
  | none => rfl
  | some m =>
    obtain ⟨-, ws, rfl, -⟩ := unreleasedPattern_matchHere_eq_some hm
    exact absurd ⟨"Unreleased]".toList ++ ws ++ '\n' :: m.2, by simp [unreleasedHeading]⟩ h

/-! ### An Unreleased match before a `##` -/

theorem ne_hash_of_isSpace {c : Char} (h : isSpace c) : c ≠ '#' := by
  rintro rfl
  exact absurd h (by decide)

theorem not_hashes_prefix_of_head {y : Char} (hy : y ≠ '#') (a : List Char) :
    ¬ "##".toList <+: y :: a := by
  rintro ⟨t, ht⟩
  exact hy (by simpa using (congrArg List.head? ht).symm)

theorem not_open_of_not_hashes {s : List Char} (h : ¬ "##".toList <+: s) : ¬ "## [".toList <+: s :=
  fun hp => h ((List.prefix_append "##".toList " [".toList).trans hp)

/-- `##` stands in `## [Unreleased]` only at its start. -/
theorem not_hashes_prefix_of_unreleased_suffix {a t : List Char} (ha : a ≠ []) (ht : t ≠ [])
    (h : a ++ t = "## [Unreleased]".toList) (s : List Char) : ¬ "##".toList <+: t ++ s := by
  obtain ⟨x, t, rfl⟩ := List.exists_cons_of_ne_nil ht
  obtain ⟨y, a, rfl⟩ := List.exists_cons_of_ne_nil ha
  intro hp
  obtain ⟨rfl, hp⟩ : '#' = x ∧ ['#'] <+: t ++ s := by simpa using hp
  obtain ⟨-, h⟩ : y = '#' ∧ a ++ '#' :: t = " # [Unreleased]".toList.tail := by simpa using h
  rcases a with _ | ⟨z, a⟩
  · obtain rfl : t = " [Unreleased]".toList := by simpa using h
    simp at hp
  · obtain ⟨-, h⟩ : '#' = z ∧ " [Unreleased]".toList = a ++ '#' :: t := by simpa using h.symm
    have hmem : '#' ∈ " [Unreleased]".toList := by
      rw [h]
      simp
    exact absurd hmem (by decide)

/-- Past its first character, the Unreleased heading does not open with `##`. -/
theorem not_hashes_prefix_of_unreleasedHeading_suffix {ws c a : List Char}
    (hws : ∀ x ∈ ws, isSpace x) (hc : c ≠ []) (ha : a ≠ []) (h : c ++ a = unreleasedHeading ws)
    (X : List Char) : ¬ "##".toList <+: a ++ X := by
  have hspace : ∀ y ∈ ws ++ ['\n'], y ≠ '#' := fun y hy => by
    rcases List.mem_append.mp hy with hy | hy
    · exact ne_hash_of_isSpace (hws y hy)
    · rw [List.mem_singleton.mp hy]; decide
  rw [unreleasedHeading, List.append_assoc] at h
  rcases List.append_eq_append_iff.mp h with ⟨b, hL, rfl⟩ | ⟨b, -, hb⟩
  · rcases b with _ | ⟨y, b⟩
    · obtain ⟨y, t, hyt⟩ := List.exists_cons_of_ne_nil (show ws ++ ['\n'] ≠ [] by simp)
      rw [List.nil_append, hyt, List.cons_append]
      exact not_hashes_prefix_of_head (hspace y (hyt ▸ List.mem_cons_self _ _)) _
    · simpa using not_hashes_prefix_of_unreleased_suffix hc (List.cons_ne_nil _ _) hL.symm
        (ws ++ '\n' :: X)
  · obtain ⟨y, a, rfl⟩ := List.exists_cons_of_ne_nil ha
    exact not_hashes_prefix_of_head
      (hspace y (hb ▸ List.mem_append_right _ (List.mem_cons_self _ _))) _

/-- **An Unreleased match ends before a `##`**: started in a nonempty `a` with `b`
after it, the match reads inside `a` only. -/
theorem unreleasedPattern_matchHere_append {prev : Option Char} {a b : List Char}
    {g : Option (List Char)} {rest : List Char} (ha : a ≠ []) (hb : "##".toList <+: b)
    (h : unreleasedPattern.matchHere prev (a ++ b) = some (g, rest)) :
    ∃ r, rest = r ++ b ∧ ∃ ws, a = unreleasedHeading ws ++ r ∧ ∀ c ∈ ws, isSpace c := by
  obtain ⟨-, ws, heq, hws, -⟩ := unreleasedPattern_matchHere_eq_some h
  rw [unreleasedHeading_append] at heq
  have hhash : ∀ x t, b = x :: t → x = '#' := fun x t hbt => by
    obtain ⟨u, rfl⟩ := hb
    simpa using (congrArg List.head? hbt).symm
  rw [List.append_assoc] at heq
  rcases List.append_eq_append_iff.mp heq with ⟨a', hL, hb'⟩ | ⟨c', rfl, hc⟩
  · exfalso
    rcases a' with _ | ⟨x, a'⟩
    · rcases ws with _ | ⟨w, ws⟩
      · exact absurd (hhash _ _ hb') (by decide)
      · exact ne_hash_of_isSpace (hws w (List.mem_cons_self _ _)) (hhash _ _ hb')
    · exact not_hashes_prefix_of_unreleased_suffix ha (List.cons_ne_nil _ _) hL.symm _ (hb' ▸ hb)
  · rcases List.append_eq_append_iff.mp hc with ⟨a', rfl, hb'⟩ | ⟨c'', rfl, hb'⟩
    · rcases a' with _ | ⟨x, a'⟩
      · exact absurd (hhash _ _ hb'.symm) (by decide)
      · obtain ⟨rfl, rfl⟩ := List.cons.inj hb'
        exact ⟨a', rfl, ws, by simp [unreleasedHeading], hws⟩
    · exfalso
      rcases c'' with _ | ⟨x, c''⟩
      · exact absurd (hhash _ _ hb') (by decide)
      · exact ne_hash_of_isSpace (hws x (by simp)) (hhash _ _ hb')

theorem takeWhile_isSpace_append_hashes {b b' : List Char} (hb : "##".toList <+: b)
    (hb' : "##".toList <+: b') (r : List Char) :
    (r ++ b).takeWhile isSpace = (r ++ b').takeWhile isSpace := by
  obtain ⟨t, rfl⟩ := hb
  obtain ⟨t', rfl⟩ := hb'
  simp [List.takeWhile_append, show isSpace '#' = false by decide]

/-- **The Unreleased match does not look past a `##`**: a match that ends before
`b` is the same match before any other text opening with `##`. -/
theorem unreleasedPattern_matchHere_append_right {prev prev' : Option Char} {a b b' r : List Char}
    {g : Option (List Char)} (ha : a ≠ []) (hb : "##".toList <+: b) (hb' : "##".toList <+: b')
    (h : unreleasedPattern.matchHere prev (a ++ b) = some (g, r ++ b)) :
    unreleasedPattern.matchHere prev' (a ++ b') = some (g, r ++ b') := by
  obtain ⟨rfl, -, -, -, hmax⟩ := unreleasedPattern_matchHere_eq_some h
  obtain ⟨r₀, hr, ws, rfl, hws⟩ := unreleasedPattern_matchHere_append ha hb h
  obtain rfl := List.append_cancel_right hr
  have hmax₀ : '\n' ∉ (r ++ b').takeWhile isSpace := by
    rwa [← takeWhile_isSpace_append_hashes hb hb']
  obtain ⟨⟨g', rest'⟩, h'⟩ := Option.isSome_iff_exists.mp
    (unreleasedPattern_matchHere_isSome prev' (r ++ b') hws)
  obtain ⟨rfl, ws', hcs, hws', hmax'⟩ := unreleasedPattern_matchHere_eq_some h'
  rw [unreleasedHeading_append, unreleasedHeading_append, List.append_assoc, List.append_assoc,
    List.append_cancel_left_eq] at hcs
  rw [List.append_assoc, h', spaces_newline_inj hws' hws hmax' hmax₀ hcs.symm]

theorem unreleasedPattern_matchHere_append_right_eq_none {prev prev' : Option Char} {a b b' : List Char}
    (ha : a ≠ []) (hb : "##".toList <+: b) (hb' : "##".toList <+: b')
    (h : unreleasedPattern.matchHere prev (a ++ b) = none) :
    unreleasedPattern.matchHere prev' (a ++ b') = none := by
  cases h' : unreleasedPattern.matchHere prev' (a ++ b') with
  | none => rfl
  | some m =>
    obtain ⟨g, rest⟩ := m
    obtain ⟨r, rfl, -⟩ := unreleasedPattern_matchHere_append ha hb' h'
    rw [unreleasedPattern_matchHere_append_right ha hb' hb h'] at h
    cases h

/-! ### Version headers and the Unreleased heading -/

theorem append_cons_cancel_of_not_mem {α : Type*} {c : α} {x y x' y' : List α} (hx : c ∉ x)
    (hx' : c ∉ x') (h : x ++ c :: y = x' ++ c :: y') : y = y' := by
  rcases List.append_eq_append_iff.mp h with ⟨a, rfl, h'⟩ | ⟨a, rfl, h'⟩
  · rcases a with _ | ⟨d, a⟩
    · exact (List.cons.inj h').2
    · obtain ⟨rfl, -⟩ := List.cons.inj h'
      simp at hx'
  · rcases a with _ | ⟨d, a⟩
    · exact (List.cons.inj h').2.symm
    · obtain ⟨rfl, -⟩ := List.cons.inj h'
      simp at hx

/-- The `]` of the Unreleased heading is followed by white space and a newline, the
`]` ending a version by ` - `. -/
theorem unreleasedHeading_append_ne_bracket_dash {ws x : List Char} (hws : ∀ c ∈ ws, isSpace c)
    (hx : ']' ∉ x) (w X : List Char) : unreleasedHeading ws ++ w ≠ x ++ "] - ".toList ++ X := by
  intro heq
  have hrest := append_cons_cancel_of_not_mem hx (by decide)
    (show x ++ ']' :: (" - ".toList ++ X) = "## [Unreleased".toList ++ ']' :: (ws ++ '\n' :: w) by
      simpa [unreleasedHeading] using heq.symm)
  rcases ws with _ | ⟨c, _ | ⟨c', ws⟩⟩
  · simp at hrest
  · simp at hrest
  · obtain ⟨-, rfl, -⟩ : c = ' ' ∧ c' = '-' ∧ _ := by simpa using hrest.symm
    exact absurd (hws '-' (by simp)) (by decide)

/-- The Unreleased heading is no part of a version header. -/
theorem unreleasedHeading_ne_header_suffix {version date ws p a rest w : List Char}
    (h : IsHeader version date) (hws : ∀ c ∈ ws, isSpace c) (ha : a ≠ [])
    (hH : header version date = p ++ a) : unreleasedHeading ws ++ w ≠ a ++ rest := by
  intro hU
  have hsplit : header version date = ("## [".toList ++ version) ++ ']' :: (" - ".toList ++ date) := by
    simp [header]
  rw [hsplit] at hH
  rcases List.append_eq_append_iff.mp hH.symm with ⟨b, hb, rfl⟩ | ⟨c, -, hc⟩
  · have hb' : ']' ∉ b := fun hm => by
      have hm' : ']' ∈ "## [".toList ++ version := hb ▸ List.mem_append_right _ hm
      simp only [List.mem_append] at hm'
      exact hm'.elim (absurd · (by decide)) h.bracket_not_mem
    exact unreleasedHeading_append_ne_bracket_dash hws hb' w (date ++ rest) (by simpa using hU)
  · rcases c with _ | ⟨x, c⟩
    · rw [List.nil_append] at hc
      subst hc
      simpa [unreleasedHeading] using congrArg List.head? hU
    · obtain ⟨-, hc⟩ := List.cons.inj hc
      obtain ⟨y, a, rfl⟩ := List.exists_cons_of_ne_nil ha
      have hy : y ∈ "] - ".toList ++ date := by
        have : y ∈ " - ".toList ++ date := hc ▸ List.mem_append_right _ (List.mem_cons_self _ _)
        simpa using Or.inr this
      obtain rfl : '#' = y := by simpa [unreleasedHeading] using congrArg List.head? hU
      exact hash_not_mem_dateTail h.isDate hy

/-- No Unreleased heading starts inside a new section whose version holds no `]`
and whose entries hold no `## [`. -/
theorem unreleasedPattern_matchHere_newSection {version date entries : List Char}
    (h : IsHeader version date) (he : ¬ "## [".toList <:+: entries) {s₁ s₂ : List Char}
    (hs : newSection version date entries = s₁ ++ s₂) (hne : s₂ ≠ []) (prev : Option Char)
    (B : List Char) : unreleasedPattern.matchHere prev (s₂ ++ B) = none := by
  have hsec : newSection version date entries =
      header version date ++ ("\n\n".toList ++ entries ++ "\n\n".toList) := by
    simp [newSection, header]
  rw [hsec] at hs
  rcases List.append_eq_append_iff.mp hs.symm with ⟨a, hH, rfl⟩ | ⟨c, -, hT⟩
  · rcases a with _ | ⟨x, a⟩
    · exact unreleasedPattern_matchHere_eq_none_of_not_open
        (not_prefix_sectionTail he (List.nil_append _).symm hne B)
    · cases hm : unreleasedPattern.matchHere prev (x :: a ++ ("\n\n".toList ++ entries ++
          "\n\n".toList) ++ B) with
      | none => rfl
      | some m =>
        obtain ⟨-, ws, heq, hws, -⟩ := unreleasedPattern_matchHere_eq_some hm
        exact absurd (by rw [← heq, List.append_assoc])
          (unreleasedHeading_ne_header_suffix h hws (List.cons_ne_nil _ _) hH)
  · exact unreleasedPattern_matchHere_eq_none_of_not_open (not_prefix_sectionTail he hT hne B)

/-- **A version header match ends before an Unreleased heading.** -/
theorem versionPattern_matchHere_before_unreleased {prev : Option Char} {p ws w : List Char}
    {g : Option (List Char)} {rest : List Char} (hws : ∀ c ∈ ws, isSpace c)
    (h : versionPattern.matchHere prev (p ++ (unreleasedHeading ws ++ w)) = some (g, rest)) :
    ∃ t, rest = t ++ (unreleasedHeading ws ++ w) := by
  obtain ⟨v, d, hvd, -, heq⟩ := versionPattern_matchHere_eq_some h
  rcases List.append_eq_append_iff.mp heq with ⟨a, hH, hU⟩ | ⟨c, -, rfl⟩
  · rcases a with _ | ⟨x, a⟩
    · exact ⟨[], by simpa using hU.symm⟩
    · exact absurd hU (unreleasedHeading_ne_header_suffix hvd hws (List.cons_ne_nil _ _) hH)
  · exact ⟨c, rfl⟩

/-- **The header scan does not read past the Unreleased heading.** -/
theorem versionPattern_localTo_unreleased (prev : Option Char) {p ws : List Char}
    (hws : ∀ c ∈ ws, isSpace c) (w w' : List Char) :
    versionPattern.LocalTo prev (p ++ unreleasedHeading ws) w w' := by
  have key : ∀ q c, versionPattern.matchHere q (c ++ unreleasedHeading ws ++ w) = none →
      versionPattern.matchHere q (c ++ unreleasedHeading ws ++ w') = none := by
    intro q c hold
    cases hnew : versionPattern.matchHere q (c ++ unreleasedHeading ws ++ w') with
    | none => rfl
    | some m =>
      obtain ⟨g, rest⟩ := m
      obtain ⟨t, rfl⟩ := versionPattern_matchHere_before_unreleased hws
        (by rwa [List.append_assoc] at hnew)
      rw [versionPattern_matchHere_append_left (u := c ++ unreleasedHeading ws)
        (show versionPattern.matchHere q (c ++ unreleasedHeading ws ++ w') =
          some (g, t ++ unreleasedHeading ws ++ w') by rw [hnew, List.append_assoc])] at hold
      cases hold
  have hcase : ∀ a₁ c, (versionPattern.matchHere (lastChar prev a₁) (c ++ unreleasedHeading ws ++ w) = none ∧
        versionPattern.matchHere (lastChar prev a₁) (c ++ unreleasedHeading ws ++ w') = none) ∨
      ∃ g t, versionPattern.matchHere (lastChar prev a₁) (c ++ unreleasedHeading ws ++ w) =
          some (g, t ++ w) ∧
        versionPattern.matchHere (lastChar prev a₁) (c ++ unreleasedHeading ws ++ w') =
          some (g, t ++ w') := by
    intro a₁ c
    cases hold : versionPattern.matchHere (lastChar prev a₁) (c ++ unreleasedHeading ws ++ w) with
    | none => exact .inl ⟨rfl, key _ c hold⟩
    | some m =>
      obtain ⟨g, rest⟩ := m
      obtain ⟨t, rfl⟩ := versionPattern_matchHere_before_unreleased hws
        (by rwa [List.append_assoc] at hold)
      have hold' : versionPattern.matchHere (lastChar prev a₁) (c ++ unreleasedHeading ws ++ w) =
          some (g, (t ++ unreleasedHeading ws) ++ w) := by rw [hold, List.append_assoc]
      exact .inr ⟨g, t ++ unreleasedHeading ws, by rw [List.append_assoc],
        versionPattern_matchHere_append_left hold'⟩
  intro a₁ a₂ ha hne
  rcases List.append_eq_append_iff.mp ha with ⟨a', -, hU⟩ | ⟨c, -, rfl⟩
  · rcases a' with _ | ⟨x, a'⟩
    · rw [List.nil_append] at hU
      subst hU
      simpa using hcase a₁ []
    · exact .inl ⟨versionPattern_matchHere_eq_none_of_not_open (not_open_of_not_hashes
        (not_hashes_prefix_of_unreleasedHeading_suffix hws (List.cons_ne_nil _ _) hne hU.symm w)),
        versionPattern_matchHere_eq_none_of_not_open (not_open_of_not_hashes
        (not_hashes_prefix_of_unreleasedHeading_suffix hws (List.cons_ne_nil _ _) hne hU.symm w'))⟩
  · simpa using hcase a₁ c

/-! ### The search in the text written -/

/-- **The Unreleased search over the text written.**  Inserting `S`, which opens
with `##` and inside which no Unreleased heading starts, before a `B` opening
with `##` and past the Unreleased match, leaves the search's answer as it was. -/
theorem unreleasedPattern_search_insert {A S B : List Char} (hS : "##".toList <+: S)
    (hB : "##".toList <+: B)
    (hnone : ∀ s₁ s₂, S = s₁ ++ s₂ → s₂ ≠ [] → unreleasedPattern.matchHere none (s₂ ++ B) = none)
    (hk : ∀ u, unreleasedPattern.search (A ++ B) = some u → u.stop ≤ A.length) :
    unreleasedPattern.search (A ++ S ++ B) = unreleasedPattern.search (A ++ B) := by
  have hSB : "##".toList <+: S ++ B := hS.trans (List.prefix_append _ _)
  have hSne : S ≠ [] := by rintro rfl; simp at hS
  cases hu : unreleasedPattern.search (A ++ B) with
  | none =>
    simp only [Re.search, Option.map_eq_none', Re.searchAt_eq_none_iff] at hu ⊢
    intro x rest hx
    rw [unreleasedPattern_matchHere_prev _ none]
    rw [List.append_assoc] at hx
    rcases List.append_eq_append_iff.mp hx with ⟨a', rfl, hr⟩ | ⟨c', rfl, rfl⟩
    · rcases List.append_eq_append_iff.mp hr with ⟨a'', rfl, rfl⟩ | ⟨c'', rfl, rfl⟩
      · rw [unreleasedPattern_matchHere_prev _ (lastChar none (A ++ a''))]
        exact hu (A ++ a'') rest (by simp)
      · rcases c'' with _ | ⟨y, c''⟩
        · rw [unreleasedPattern_matchHere_prev _ (lastChar none A)]
          exact hu A B (by simp)
        · exact hnone a' _ rfl (List.cons_ne_nil _ _)
    · rcases c' with _ | ⟨y, c'⟩
      · exact hnone [] S rfl hSne
      · exact unreleasedPattern_matchHere_append_right_eq_none (List.cons_ne_nil _ _) hB hSB
          (hu x _ (by simp))
  | some u =>
    have hstop := hk u hu
    obtain ⟨⟨j, g, rest⟩, hs, rfl⟩ := Option.map_eq_some'.mp hu
    obtain ⟨x, rest₀, hx, rfl, hm⟩ := Re.searchAt_sound hs
    have hlen : rest.length + 16 ≤ rest₀.length := by
      obtain ⟨-, ws, rfl, -⟩ := unreleasedPattern_matchHere_eq_some hm
      simp [unreleasedHeading]
    have hx₀ := congrArg List.length hx
    simp only [List.length_append] at hx₀ hstop
    rcases List.append_eq_append_iff.mp hx with ⟨a', rfl, -⟩ | ⟨c', rfl, rfl⟩
    · simp only [List.length_append] at hx₀ hstop; omega
    have hc' : c' ≠ [] := by rintro rfl; simp at hx₀ hstop hlen; omega
    obtain ⟨r, rfl, -⟩ := unreleasedPattern_matchHere_append hc' hB hm
    have hnew : unreleasedPattern.searchAt 0 none (x ++ c' ++ S ++ B) = some (0 + x.length, g, r ++ (S ++ B)) :=
      Re.searchAt_of_first (by simp) (unreleasedPattern_matchHere_append_right hc' hB hSB hm)
        fun x'' rest'' h'' hlt => by
          simp only [List.append_assoc] at h''
          rcases List.append_eq_append_iff.mp h'' with ⟨a', rfl, -⟩ | ⟨d, rfl, rfl⟩
          · simp only [List.length_append] at hlt; omega
          rcases d with _ | ⟨y, d⟩
          · simp at hlt
          have hold := Re.searchAt_first hs x'' (y :: d ++ c' ++ B) (by simp) (by simp)
          simpa only [List.append_assoc] using
            unreleasedPattern_matchHere_append_right_eq_none (by simp) hB hSB hold
    rw [Re.search, hnew]
    simp only [Option.map_some', List.length_append]
    congr 2
    omega

/-- The newline written before the section joins the heading's white space. -/
theorem unreleasedPattern_matchHere_newline {ws S : List Char} (hws : ∀ c ∈ ws, isSpace c)
    (hS : "##".toList <+: S) (q : Option Char) :
    unreleasedPattern.matchHere q (unreleasedHeading ws ++ '\n' :: S) = some (none, S) := by
  have hws' : ∀ c ∈ ws ++ ['\n'], isSpace c := fun c hc =>
    (List.mem_append.mp hc).elim (hws c) fun h => by rw [List.mem_singleton.mp h]; rfl
  have heq : unreleasedHeading (ws ++ ['\n']) ++ S = unreleasedHeading ws ++ '\n' :: S := by
    simp [unreleasedHeading]
  obtain ⟨⟨g, rest⟩, h⟩ := Option.isSome_iff_exists.mp (unreleasedPattern_matchHere_isSome q S hws')
  rw [heq] at h
  obtain ⟨rfl, ws', hcs, hws'', hmax⟩ := unreleasedPattern_matchHere_eq_some h
  have hmaxS : '\n' ∉ S.takeWhile isSpace := by
    obtain ⟨t, rfl⟩ := hS
    simp [show isSpace '#' = false by decide]
  have hcs' : (ws ++ ['\n']) ++ '\n' :: S = ws' ++ '\n' :: rest := by
    simpa [unreleasedHeading] using hcs
  rw [h, spaces_newline_inj hws' hws'' hmaxS hmax hcs']

/-- What `re.search` reports for the Unreleased heading: its match, after no
earlier cursor starts one, and no newline left in the white space after it. -/
theorem unreleasedPattern_search_eq_some {content : List Char} {u : ReMatch}
    (h : unreleasedPattern.search content = some u) :
    ∃ p ws r, (∀ c ∈ ws, isSpace c) ∧ content = p ++ unreleasedHeading ws ++ r ∧
      u = ⟨p.length, (p ++ unreleasedHeading ws).length, none⟩ ∧
      ∀ x rest, content = x ++ rest → x.length < p.length →
        unreleasedPattern.matchHere (lastChar none x) rest = none := by
  obtain ⟨⟨j, g, r⟩, hs, rfl⟩ := Option.map_eq_some'.mp h
  obtain ⟨p, rest, rfl, rfl, hm⟩ := Re.searchAt_sound hs
  obtain ⟨rfl, ws, rfl, hws, -⟩ := unreleasedPattern_matchHere_eq_some hm
  refine ⟨p, ws, r, hws, by simp, ?_, fun x rest hx hlt => Re.searchAt_first hs x rest hx (by simpa)⟩
  simp only [List.length_append, Nat.zero_add]
  congr 1
  omega

/-- **The Unreleased search after a newline and a section are written right after
the heading**: the match is the old one, with the written newline. -/
theorem unreleasedPattern_search_insert_after {content : List Char} {u : ReMatch}
    (hu : unreleasedPattern.search content = some u) {S : List Char} (hS : "##".toList <+: S) :
    unreleasedPattern.search (content.take u.stop ++ '\n' :: (S ++ content.drop u.stop)) =
      some ⟨u.start, u.stop + 1, none⟩ := by
  obtain ⟨p, ws, r, hws, rfl, rfl, hbefore⟩ := unreleasedPattern_search_eq_some hu
  have hU : "##".toList <+: unreleasedHeading ws ++ r :=
    ⟨" [Unreleased]".toList ++ ws ++ '\n' :: r, by simp [unreleasedHeading]⟩
  have hU' : "##".toList <+: unreleasedHeading ws ++ '\n' :: (S ++ r) :=
    ⟨" [Unreleased]".toList ++ ws ++ '\n' :: '\n' :: (S ++ r), by simp [unreleasedHeading]⟩
  have hnew : unreleasedPattern.searchAt 0 none (p ++ (unreleasedHeading ws ++ '\n' :: (S ++ r))) =
      some (0 + p.length, none, S ++ r) :=
    Re.searchAt_of_first rfl (unreleasedPattern_matchHere_newline hws
      (hS.trans (List.prefix_append _ _)) _) fun x rest hx hlt => by
        rcases List.append_eq_append_iff.mp hx with ⟨a', rfl, -⟩ | ⟨d, rfl, rfl⟩
        · simp only [List.length_append] at hlt; omega
        rcases d with _ | ⟨y, d⟩
        · simp at hlt
        have hold := hbefore x (y :: d ++ (unreleasedHeading ws ++ r)) (by simp) hlt
        simpa only [List.append_assoc] using
          unreleasedPattern_matchHere_append_right_eq_none (List.cons_ne_nil _ _) hU hU' hold
  dsimp only
  rw [List.take_left, List.drop_left, Re.search, List.append_assoc, hnew]
  simp only [Option.map_some', List.length_append, List.length_cons, Nat.zero_add]
  congr 2
  omega

end ReleaseScripts
