/-
ReleaseScripts/Extract.lean

`extract_release_notes_section`: the first `## Release Notes` heading of a PR
body, and the text after it up to the next level-2 heading.

Design.  The pattern `(?m)^##\s+Release\s+Notes\s+([\s\S]*?)(?=^##\s|\Z)`,
compiled with `re.IGNORECASE`, is written in the syntax of `Regex.lean` and
run by its `search`.  What it reads is then said by plain functions:
`afterHeading?` reads `##`, whitespace, `Release`, whitespace and `Notes` at the
front of a text, each whitespace run taken whole, and asks for whitespace
after it; `untilNextH2` keeps the text up to the next line that starts with
`##` and a whitespace character.  The matcher is related to them one piece of
the pattern at a time: a greedy `\s+` reads its whole run because the next
letter of the pattern is never whitespace (`run_spaces_then`), and the lazy
group stops at the first cursor where the lookahead holds
(`repRun_lazy_section`).

Main result: `extractReleaseNotesSection_spec`: `None` exactly when no line
start begins a heading, and otherwise the stripped text after the first
heading's `Notes`, up to the next level-2 heading line.
-/
import ReleaseScripts.Regex

namespace ReleaseScripts

/-! ### The pattern -/

/-- `re.IGNORECASE` on a character of a pattern: Python compares lower cases, and
lets the long s `ſ` stand for `s`.  ASCII `toLower` is exact for the characters
of these patterns: no other character lowers to `#` or to a letter of
`Release Notes`. -/
def ignoreCaseEq (p c : Char) : Bool :=
  c.toLower == p.toLower || (p.toLower == 's' && c == 'ſ')

/-- A word of a pattern compiled with `re.IGNORECASE`. -/
def Re.ciLit (w : List Char) : Re := Re.word ignoreCaseEq w

/-- `(?=^##\s|\Z)`. -/
def sectionEndPattern : Re :=
  .ahead (.alt (.seq .bol (.seq (.ciLit ['#', '#']) (.cls isSpace))) .eos)

/-- `([\s\S]*?)(?=^##\s|\Z)`: the section, up to a level-2 heading or the end. -/
def sectionPattern : Re :=
  .seq (.group (.rep (fun _ => true) 0 false)) sectionEndPattern

/-- `(?m)^##\s+Release\s+Notes\s+([\s\S]*?)(?=^##\s|\Z)` with `re.IGNORECASE`. -/
def releaseNotesPattern : Re :=
  .seq .bol <| .seq (.ciLit ['#', '#']) <| .seq (.rep isSpace 1 true) <|
    .seq (.ciLit ['R', 'e', 'l', 'e', 'a', 's', 'e']) <| .seq (.rep isSpace 1 true) <|
    .seq (.ciLit ['N', 'o', 't', 'e', 's']) <| .seq (.rep isSpace 1 true) sectionPattern

/-- `extract_release_notes_section`. -/
def extractReleaseNotesSection (prBody : List Char) : Option (List Char) :=
  if prBody = [] then none
  else (releaseNotesPattern.search prBody).bind fun m => m.group.map strip

/-! ### What the pattern reads -/

/-- The text after a run of one or more whitespace characters at the front, the
run taken whole. -/
def dropSpaces? : List Char → Option (List Char)
  | c :: cs => if isSpace c then some (cs.dropWhile isSpace) else none
  | [] => none

/-- The text after `## Release Notes` at the front of `cs`: `##`, whitespace,
`Release`, whitespace and `Notes`, letters compared as `re.IGNORECASE` compares
them and whitespace runs taken whole; whitespace must follow. -/
def afterHeading? (cs : List Char) : Option (List Char) := do
  let cs ← wordRest ignoreCaseEq ['#', '#'] cs
  let cs ← dropSpaces? cs
  let cs ← wordRest ignoreCaseEq ['R', 'e', 'l', 'e', 'a', 's', 'e'] cs
  let cs ← dropSpaces? cs
  let cs ← wordRest ignoreCaseEq ['N', 'o', 't', 'e', 's'] cs
  if cs.head?.any isSpace then some cs else none

/-- A cursor at the start of a line. -/
def atLineStart (prev : Option Char) : Bool :=
  prev == none || prev == some '\n'

/-- `cs` starts with `##` and a whitespace character. -/
def startsH2 (cs : List Char) : Bool :=
  match wordRest ignoreCaseEq ['#', '#'] cs with
  | some (c :: _) => isSpace c
  | _ => false

/-- The text up to the first line that starts with `##` and a whitespace character;
`atStart` says whether `cs` itself starts a line. -/
def untilNextH2 : Bool → List Char → List Char
  | _, [] => []
  | atStart, c :: cs => if atStart && startsH2 (c :: cs) then [] else c :: untilNextH2 (c == '\n') cs

@[simp] theorem atLineStart_some (c : Char) : atLineStart (some c) = (c == '\n') := by
  simp [atLineStart]

theorem untilNextH2_prefix : ∀ (b : Bool) (cs : List Char), untilNextH2 b cs <+: cs
  | _, [] => List.prefix_refl _
  | b, c :: cs => by
    unfold untilNextH2
    split
    · exact List.nil_prefix
    · exact List.cons_prefix_cons.mpr ⟨rfl, untilNextH2_prefix _ cs⟩

/-! ### Whitespace is never a letter of the pattern -/

theorem toNat_of_isSpace {c : Char} (h : isSpace c = true) : c.toNat < 65 ∨ 122 < c.toNat := by
  have e : ∀ d : Char, c = d → c.toNat = d.toNat := fun d h => h ▸ rfl
  simp only [isSpace, Bool.or_eq_true, Bool.and_eq_true, decide_eq_true_eq,
    show ∀ a b : Char, a ≤ b ↔ a.toNat ≤ b.toNat from fun _ _ => Iff.rfl] at h
  rcases h with (((((((((((h | h) | h) | h) | h) | h) | h) | h) | h) | h) | h) | h) <;>
    first | (have h₀ := e _ h; simp at h₀; omega) | (simp at h; omega)

theorem toLower_of_isSpace {c : Char} (h : isSpace c = true) : c.toLower = c := by
  have := toNat_of_isSpace h
  simp only [Char.toLower]
  split
  · omega
  · rfl

/-- A whitespace character matches no letter of the pattern (nor its `#`). -/
theorem ignoreCaseEq_of_isSpace {p c : Char} (hc : isSpace c = true) (hp : p.toLower ≠ c)
    (hs : p.toLower ≠ 's') : ignoreCaseEq p c = false := by
  simp [ignoreCaseEq, toLower_of_isSpace hc, Ne.symm hp, hs]

theorem ignoreCaseEq_hash_of_isSpace {c : Char} (hc : isSpace c = true) :
    ignoreCaseEq '#' c = false :=
  ignoreCaseEq_of_isSpace hc (by rintro rfl; simp [isSpace] at hc) (by decide)

theorem ignoreCaseEq_letter_of_isSpace {p c : Char} (hc : isSpace c = true)
    (hp : 97 ≤ p.toLower.toNat ∧ p.toLower.toNat ≤ 122) (hs : p.toLower ≠ 's') :
    ignoreCaseEq p c = false :=
  ignoreCaseEq_of_isSpace hc (fun e => by have := toNat_of_isSpace hc; rw [← e] at this; omega) hs

theorem startsH2_of_isSpace {c : Char} (hc : isSpace c = true) (cs : List Char) :
    startsH2 (c :: cs) = false := by
  simp [startsH2, wordRest, ignoreCaseEq_hash_of_isSpace hc]

/-- Whitespace is never the start of a level-2 heading, so it passes into the section. -/
theorem untilNextH2_spaces {w : List Char} (hw : ∀ c ∈ w, isSpace c = true) (prev : Option Char)
    (r : List Char) :
    untilNextH2 (atLineStart prev) (w ++ r) = w ++ untilNextH2 (atLineStart (lastChar prev w)) r := by
  induction w generalizing prev with
  | nil => rfl
  | cons c w ih =>
    have hc := hw c (List.mem_cons_self c w)
    rw [List.cons_append, untilNextH2, startsH2_of_isSpace hc, Bool.and_false, if_neg (by simp),
      ← atLineStart_some, ih (fun d hd => hw d (List.mem_cons_of_mem c hd)), lastChar_cons,
      List.cons_append]

/-! ### The pattern, one piece at a time -/

section Pieces

variable {g : Option (List Char)} {k : Option (List Char) → Option Char → List Char → Option Res}

theorem Re.run_ciLit (w : List Char) (prev : Option Char) (cs : List Char) :
    (Re.ciLit w).run g prev cs k =
      (wordRest ignoreCaseEq w cs).bind fun rest => k g (lastChar prev (cs.take w.length)) rest :=
  Re.run_word ignoreCaseEq w prev cs

/-- `\s+` before a pattern that cannot start on whitespace reads its whole run. -/
theorem Re.run_spaces_then {r : Re}
    (hr : ∀ g prev d cs k, isSpace d = true → r.run g prev (d :: cs) k = none)
    (prev : Option Char) (cs : List Char) :
    (Re.seq (.rep isSpace 1 true) r).run g prev cs k =
      (dropSpaces? cs).bind fun rest => r.run g (lastChar prev (cs.takeWhile isSpace)) rest k := by
  simp only [Re.run]
  rw [repRun_greedy_eq fun prev d cs hd => hr _ prev d cs _ hd]
  cases cs with
  | nil => rfl
  | cons c cs => by_cases hc : isSpace c <;> simp [dropSpaces?, hc]

/-- A word that starts with a letter does not start on whitespace. -/
theorem Re.run_ciLit_letter_of_isSpace {a : Char} {w : List Char} (r : Re)
    (ha : 97 ≤ a.toLower.toNat ∧ a.toLower.toNat ≤ 122) (hs : a.toLower ≠ 's') :
    ∀ g prev d cs k, isSpace d = true → (Re.seq (.ciLit (a :: w)) r).run g prev (d :: cs) k = none := by
  intro g prev d cs k hd
  simp [Re.run, Re.run_ciLit, wordRest, ignoreCaseEq_letter_of_isSpace hd ha hs]

/-- `\s+` before a word that starts with a letter. -/
theorem Re.run_spaces_ciLit {a : Char} {w : List Char} (r : Re)
    (ha : 97 ≤ a.toLower.toNat ∧ a.toLower.toNat ≤ 122) (hs : a.toLower ≠ 's')
    (prev : Option Char) (cs : List Char) :
    (Re.seq (.rep isSpace 1 true) (.seq (.ciLit (a :: w)) r)).run g prev cs k =
      (dropSpaces? cs).bind fun rest =>
        (Re.seq (.ciLit (a :: w)) r).run g (lastChar prev (cs.takeWhile isSpace)) rest k :=
  Re.run_spaces_then (Re.run_ciLit_letter_of_isSpace r ha hs) prev cs

/-- `(?=^##\s|\Z)` holds exactly at a level-2 heading's line start or at the end. -/
theorem sectionEndPattern_run (prev : Option Char) (cs : List Char) :
    sectionEndPattern.run g prev cs k =
      if atLineStart prev && startsH2 cs || cs.isEmpty then k g prev cs else none := by
  have hbol : (prev = none ∨ prev = some '\n') ↔ atLineStart prev = true := by simp [atLineStart]
  simp only [sectionEndPattern, Re.run_ahead, Re.run_alt, Re.run_bol, Re.run_seq, Re.run_ciLit,
    Re.run_eos, hbol]
  rcases h : wordRest ignoreCaseEq ['#', '#'] cs with _ | _ | ⟨c, r⟩ <;>
    by_cases hl : atLineStart prev <;> simp [startsH2, Re.run, h, hl]

end Pieces

/-- The lazy `[\s\S]*?` stops at the first cursor where the section ends. -/
theorem repRun_lazy_section (F : List Char → Res) :
    ∀ (prev : Option Char) (cs : List Char),
      repRun (fun _ => true) false
          (fun p cs' => if atLineStart p && startsH2 cs' || cs'.isEmpty then some (F cs') else none)
          0 prev cs =
        some (F (cs.drop (untilNextH2 (atLineStart prev) cs).length))
  | prev, [] => by simp [repRun, untilNextH2]
  | prev, c :: cs => by
    have ih := repRun_lazy_section F (some c) cs
    rw [atLineStart_some] at ih
    by_cases h : (atLineStart prev && startsH2 (c :: cs)) = true
    · simp [repRun, untilNextH2, h]
    · simp only [Bool.not_eq_true] at h
      simpa [repRun, untilNextH2, h] using ih

theorem sectionPattern_matchHere (prev : Option Char) (cs : List Char) :
    sectionPattern.matchHere prev cs =
      some (some (untilNextH2 (atLineStart prev) cs),
        cs.drop (untilNextH2 (atLineStart prev) cs).length) := by
  simp only [Re.matchHere, sectionPattern, sectionEndPattern_run, Re.run_seq, Re.run_group,
    Re.run_rep]
  rw [repRun_lazy_section (fun cs' => (some (cs.take (cs.length - cs'.length)), cs'))]
  obtain ⟨t, ht⟩ := untilNextH2_prefix (atLineStart prev) cs
  have hlen : cs.length - (cs.length - (untilNextH2 (atLineStart prev) cs).length) =
      (untilNextH2 (atLineStart prev) cs).length := by
    have := congrArg List.length ht
    simp only [List.length_append] at this
    omega
  rw [List.length_drop, hlen, ← List.prefix_iff_eq_take.mp ⟨t, ht⟩]

/-- The last `\s+` and the section: whitespace must follow `Notes`, and the group,
stripped, is the text after `Notes` up to the next level-2 heading. -/
theorem run_spaces_section (p : Option Char) (cs : List Char) :
    ((Re.rep isSpace 1 true).run none p cs fun g' prev' cs' =>
        sectionPattern.run g' prev' cs' fun g _ cs' => some (g, cs')).map (fun m => m.1.map strip) =
      if cs.head?.any isSpace then some (some (strip (untilNextH2 false cs))) else none := by
  cases cs with
  | nil => rfl
  | cons c cs =>
    by_cases hc : isSpace c
    · have htw : ((c :: cs).takeWhile isSpace).length ≥ 1 := by simp [hc]
      rw [Re.run_rep, show (fun prev' cs' => sectionPattern.run none prev' cs'
        fun g _ cs' => some (g, cs')) = sectionPattern.matchHere from rfl,
        repRun_greedy_of_some htw (sectionPattern_matchHere _ _)]
      have hsp : ∀ d ∈ (c :: cs).takeWhile isSpace, isSpace d = true :=
        fun d hd => List.mem_takeWhile_imp hd
      have hlast : lastChar p ((c :: cs).takeWhile isSpace) =
          lastChar (some ' ') ((c :: cs).takeWhile isSpace) := by
        simp [List.takeWhile_cons_of_pos hc]
      conv_rhs => rw [← List.takeWhile_append_dropWhile isSpace (c :: cs),
        show false = atLineStart (some ' ') from rfl, untilNextH2_spaces hsp, strip_space_append hsp]
      simp [hc, hlast]
    · simp [Re.run_rep, repRun, hc]

/-- **A match at one cursor.**  It fails unless a line starts there with a Release
Notes heading, and otherwise its group, stripped, is the text after `Notes` up to
the next level-2 heading line. -/
theorem releaseNotesPattern_matchHere (prev : Option Char) (cs : List Char) :
    (releaseNotesPattern.matchHere prev cs).map (fun m => m.1.map strip) =
      if atLineStart prev then (afterHeading? cs).map fun rest => some (strip (untilNextH2 false rest))
      else none := by
  have hbol : (prev = none ∨ prev = some '\n') ↔ atLineStart prev = true := by simp [atLineStart]
  have hR : (97 ≤ 'R'.toLower.toNat ∧ 'R'.toLower.toNat ≤ 122) ∧ 'R'.toLower ≠ 's' := by decide
  have hN : (97 ≤ 'N'.toLower.toNat ∧ 'N'.toLower.toNat ≤ 122) ∧ 'N'.toLower ≠ 's' := by decide
  simp only [Re.matchHere, releaseNotesPattern, Re.run_seq, Re.run_bol, Re.run_ciLit,
    ↓Re.run_spaces_ciLit _ hR.1 hR.2, ↓Re.run_spaces_ciLit _ hN.1 hN.2, hbol]
  by_cases hl : atLineStart prev
  · simp [hl, afterHeading?, run_spaces_section, Function.comp_def]
  · simp [hl]

theorem releaseNotesPattern_matchHere_eq_none {prev : Option Char} {cs : List Char} :
    releaseNotesPattern.matchHere prev cs = none ↔
      atLineStart prev = false ∨ afterHeading? cs = none := by
  rw [← Option.map_eq_none', releaseNotesPattern_matchHere]
  by_cases hl : atLineStart prev <;> simp [hl]

theorem releaseNotesPattern_matchHere_group {prev : Option Char} {cs : List Char} {m : Res}
    (h : releaseNotesPattern.matchHere prev cs = some m) :
    ∃ rest, afterHeading? cs = some rest ∧ m.1.map strip = some (strip (untilNextH2 false rest)) := by
  have := releaseNotesPattern_matchHere prev cs
  rw [h, Option.map_some'] at this
  split at this
  · obtain ⟨rest, hrest, hm⟩ := Option.map_eq_some'.mp this.symm
    exact ⟨rest, hrest, by simpa using hm.symm⟩
  · cases this

/-- The function reads the search's group, stripped; the empty body needs no test of its own. -/
theorem extractReleaseNotesSection_eq (body : List Char) :
    extractReleaseNotesSection body =
      (releaseNotesPattern.searchAt 0 none body).bind fun m => m.2.1.map strip := by
  unfold extractReleaseNotesSection Re.search
  split
  · subst body
    have : releaseNotesPattern.matchHere none [] = none :=
      releaseNotesPattern_matchHere_eq_none.mpr (.inr rfl)
    simp [Re.searchAt, this]
  · cases releaseNotesPattern.searchAt 0 none body <;> rfl

/-- **`extract_release_notes_section` reads the first Release Notes heading.**  It
returns `None` exactly when no line start of the body begins a heading (`##`,
whitespace, `Release`, whitespace, `Notes`, whitespace, case-insensitively, where
whitespace includes newlines); otherwise, at the first such line start, it returns
the stripped text after `Notes` (the rest of the heading line included) up to the
next line that starts with `##` and a whitespace character, or to the end. -/
theorem extractReleaseNotesSection_spec (body : List Char) :
    (extractReleaseNotesSection body = none ↔
      ∀ pre post, body = pre ++ post → atLineStart pre.getLast? → afterHeading? post = none) ∧
    ∀ pre post rest, body = pre ++ post → atLineStart pre.getLast? →
      afterHeading? post = some rest →
      (∀ pre' post', body = pre' ++ post' → pre'.length < pre.length →
        atLineStart pre'.getLast? → afterHeading? post' = none) →
      extractReleaseNotesSection body = some (strip (untilNextH2 false rest)) := by
  have hprev : ∀ x : List Char, lastChar none x = x.getLast? := fun x => by simp [lastChar]
  refine ⟨⟨fun h pre post hb hl => ?_, fun h => ?_⟩, fun pre post rest hb hl hh hfirst => ?_⟩
  · -- a heading at a line start makes the search succeed, with a group
    by_contra hne
    obtain ⟨rest, hrest⟩ := Option.ne_none_iff_exists'.mp hne
    have hm : releaseNotesPattern.matchHere (lastChar none pre) post ≠ none := by
      rw [Ne, releaseNotesPattern_matchHere_eq_none, hprev]
      simp [hl, hrest]
    rw [extractReleaseNotesSection_eq] at h
    rcases hs : releaseNotesPattern.searchAt 0 none body with _ | ⟨j, m⟩
    · exact hm (Re.searchAt_eq_none_iff.mp hs pre post hb)
    · obtain ⟨x, rest', -, -, hx⟩ := Re.searchAt_sound hs
      obtain ⟨_, -, hg⟩ := releaseNotesPattern_matchHere_group hx
      simp [hs, hg] at h
  · -- no heading at any line start: no cursor matches
    rw [extractReleaseNotesSection_eq, Re.searchAt_eq_none_iff.mpr, Option.none_bind]
    intro pre post hb
    rw [releaseNotesPattern_matchHere_eq_none, hprev]
    by_cases hl : atLineStart pre.getLast?
    · exact .inr (h pre post hb hl)
    · exact .inl (by simpa using hl)
  · -- the first heading is the match the search reports
    obtain ⟨m, hm⟩ := Option.ne_none_iff_exists'.mp (show releaseNotesPattern.matchHere
        (lastChar none pre) post ≠ none by
      rw [Ne, releaseNotesPattern_matchHere_eq_none, hprev]; simp [hl, hh])
    obtain ⟨rest', hrest', hg⟩ := releaseNotesPattern_matchHere_group hm
    rw [hh, Option.some.injEq] at hrest'
    subst hrest'
    have hs := Re.searchAt_of_first (i := 0) hb hm fun pre' post' hb' hlt => by
      rw [releaseNotesPattern_matchHere_eq_none, hprev]
      by_cases hl' : atLineStart pre'.getLast?
      · exact .inr (hfirst pre' post' hb' hlt hl')
      · exact .inl (by simpa using hl')
    rw [extractReleaseNotesSection_eq, hs, Option.some_bind, hg]

/-- At a heading on the body's first line the first-heading condition is empty. -/
theorem extractReleaseNotesSection_spec_after_intro :
    afterHeading? "## Release Notes\n- x\n## Next".toList = some "\n- x\n## Next".toList ∧
      extractReleaseNotesSection "intro\n## Release Notes\n- x\n## Next".toList =
        some (strip (untilNextH2 false "\n- x\n## Next".toList)) :=
  have hfirst : ∀ k < 6,
      atLineStart ("intro\n## Release Notes\n- x\n## Next".toList.take k).getLast? →
        afterHeading? ("intro\n## Release Notes\n- x\n## Next".toList.drop k) = none := by
    decide
  ⟨by decide, (extractReleaseNotesSection_spec _).2 "intro\n".toList _ _ rfl rfl (by decide)
    fun pre' post' hb hlt hl => by
      have h := hfirst pre'.length hlt
      rw [hb, List.take_left, List.drop_left] at h
      exact h hl⟩

/-- The rest of the heading line is part of the section: a body whose heading line
goes on after `Notes` is not read as the lines after it. -/
theorem extractReleaseNotesSection_keeps_heading_rest :
    extractReleaseNotesSection "## Release Notes (required)\n### Fixed\n- x".toList =
        some "(required)\n### Fixed\n- x".toList ∧
      extractReleaseNotesSection "## Release Notes (required)\n### Fixed\n- x".toList ≠
        some "### Fixed\n- x".toList := by
  decide

end ReleaseScripts
