/-
ReleaseScripts/Clean.lean

`clean_content` and `is_opt_out` of `release-notes.py`.

`clean_content` runs four passes: delete every `<!--.*?-->` (under
`re.DOTALL`), strip every line, replace every `\n\s*\n` by one newline, strip
the whole.  The main lemma, `cleanContent_eq`, says what the last three passes
amount to: the non-empty stripped lines of the comment-free text, joined by
newlines.  It is proved line by line: a line has no newline, so no match of
`\n\s*\n` starts inside it, and a run of empty lines between two lines is one
match, which leaves a single newline.

Consequences: cleaning a text that is already clean changes nothing
(`cleanContent_join`), so cleaning is idempotent as long as its result holds
no comment (`cleanContent_cleanContent`).  It is not idempotent in general:
deleting a comment can splice two halves of a new one together
(`cleanContent_not_idempotent`).
-/
import ReleaseScripts.Regex

namespace ReleaseScripts

/-! ### The two patterns -/

/-- `<!--.*?-->` under `re.DOTALL`. -/
def commentPattern : Re :=
  .seq (.lit ['<', '!', '-', '-']) (.seq (.rep (fun _ => true) 0 false) (.lit ['-', '-', '>']))

/-- `\n\s*\n`. -/
def blankLinesPattern : Re :=
  .seq (.lit ['\n']) (.seq (.rep isSpace 0 true) (.lit ['\n']))

/-- `clean_content`. -/
def cleanContent (content : List Char) : List Char :=
  let content := commentPattern.sub [] content
  let content := join ((content.splitOn '\n').map strip)
  let content := blankLinesPattern.sub ['\n'] content
  strip content

/-- `is_opt_out`: the cleaned content, upper-cased, is `NONE`.  No character but
`n`, `o`, `e` and their capitals upper-cases to `N`, `O` or `E` (nor into a
longer text inside `NONE`), so Lean's ASCII `Char.toUpper` decides the test
exactly as Python's `str.upper` does. -/
def isOptOut (content : List Char) : Bool :=
  (cleanContent content).map Char.toUpper == ['N', 'O', 'N', 'E']

/-! ### Comments -/

/-- The text holds an HTML comment: a `<!--` later followed by `-->`. -/
def HasComment (s : List Char) : Prop :=
  ∃ a x b, s = a ++ ['<', '!', '-', '-'] ++ x ++ ['-', '-', '>'] ++ b

theorem commentPattern_sound {prev : Option Char} {cs : List Char} {g : Option (List Char)}
    {rest : List Char} (h : commentPattern.matchHere prev cs = some (g, rest)) :
    ∃ x, cs = ['<', '!', '-', '-'] ++ x ++ ['-', '-', '>'] ++ rest := by
  obtain ⟨cs', rfl, h₁⟩ := Re.run_lit_sound _ h
  rw [Re.run, Re.run] at h₁
  obtain ⟨x, rest', rfl, h₂⟩ := repRun_sound h₁
  obtain ⟨rest'', rfl, h₃⟩ := Re.run_lit_sound _ h₂
  cases h₃
  exact ⟨x, by simp⟩

theorem not_hasComment_of_not_mem {s : List Char} (h : '<' ∉ s) : ¬ HasComment s := by
  rintro ⟨a, x, b, rfl⟩
  simp at h

/-- Comment removal leaves a text without comments as it is. -/
theorem commentPattern_sub_of_not_hasComment {s : List Char} (h : ¬ HasComment s) :
    commentPattern.sub [] s = s := by
  refine Re.subAux_of_no_match fun x rest hs _ => ?_
  cases hm : commentPattern.matchHere (lastChar none x) rest with
  | none => rfl
  | some m =>
    obtain ⟨y, hy⟩ := commentPattern_sound (show commentPattern.matchHere _ rest = some (m.1, m.2) from hm)
    exact absurd ⟨x, y, m.2, by rw [hs, hy]; simp⟩ h

/-! ### Runs of blank lines -/

/-- The text is empty or starts with a visible character. -/
def StartsVisible (s : List Char) : Prop :=
  ∀ d, s.head? = some d → isSpace d = false

/-- The closing newline of `\n\s*\n`, which ends the match. -/
def closeNewline (prev : Option Char) (cs : List Char) : Option Res :=
  (Re.lit ['\n']).run none prev cs fun g _ cs' => some (g, cs')

@[simp] theorem closeNewline_newline (prev : Option Char) (cs : List Char) :
    closeNewline prev ('\n' :: cs) = some (none, cs) := rfl

theorem closeNewline_of_startsVisible {prev : Option Char} {cs : List Char}
    (h : StartsVisible cs) : closeNewline prev cs = none := by
  cases cs with
  | nil => rfl
  | cons d cs =>
    have hd : d ≠ '\n' := by rintro rfl; simp [StartsVisible] at h
    simp [closeNewline, Re.lit, Re.word, Re.run, hd]

theorem blankLinesPattern_matchHere_newline (prev : Option Char) (cs : List Char) :
    blankLinesPattern.matchHere prev ('\n' :: cs) = repRun isSpace true closeNewline 0 (some '\n') cs :=
  rfl

theorem blankLinesPattern_matchHere_of_ne {prev : Option Char} {c : Char} (hc : c ≠ '\n')
    (cs : List Char) : blankLinesPattern.matchHere prev (c :: cs) = none := by
  simp [blankLinesPattern, Re.matchHere, Re.run, Re.lit, Re.word, hc]

/-- After a newline, no whitespace to read and no newline: no match. -/
theorem blankLines_newline_of_startsVisible {prev : Option Char} {cs : List Char}
    (h : StartsVisible cs) : blankLinesPattern.matchHere prev ('\n' :: cs) = none := by
  rw [blankLinesPattern_matchHere_newline, repRun_greedy_of_head h, closeNewline_of_startsVisible h]

/-- After a newline, a run of further newlines up to a visible character (or
the end) is one match. -/
theorem blankLines_newlines {Y : List Char} (hY : StartsVisible Y) :
    ∀ (j : Nat) (prev : Option Char),
      repRun isSpace true closeNewline 0 prev ('\n' :: (List.replicate j '\n' ++ Y)) =
        some (none, Y)
  | 0, prev => by
    rw [repRun]
    simp [repRun_greedy_of_head hY, closeNewline_of_startsVisible hY]
  | j + 1, prev => by
    rw [repRun]
    simp [List.replicate_succ, blankLines_newlines hY j]

/-! ### `\n\s*\n` over joined lines -/

/-- No match starts inside a text without newlines. -/
theorem blankLines_sub_append {x : List Char} (hx : '\n' ∉ x) (prev : Option Char)
    (rest : List Char) : blankLinesPattern.subAux ['\n'] 0 prev (x ++ rest) =
      x ++ blankLinesPattern.subAux ['\n'] 0 (lastChar prev x) rest := by
  induction x generalizing prev with
  | nil => rfl
  | cons c x ih =>
    simp only [List.mem_cons, not_or] at hx
    rw [List.cons_append, Re.subAux_cons_of_none (blankLinesPattern_matchHere_of_ne
      (Ne.symm hx.1) _), ih hx.2, lastChar_cons, List.cons_append]

theorem blankLines_sub_newline {Y : List Char} (hY : StartsVisible Y) (prev : Option Char) :
    blankLinesPattern.subAux ['\n'] 0 prev ('\n' :: Y) =
      '\n' :: blankLinesPattern.subAux ['\n'] 0 (some '\n') Y :=
  Re.subAux_cons_of_none (blankLines_newline_of_startsVisible hY)

theorem blankLines_sub_newlines {Y : List Char} (hY : StartsVisible Y) (j : Nat)
    (prev : Option Char) :
    blankLinesPattern.subAux ['\n'] 0 prev ('\n' :: '\n' :: (List.replicate j '\n' ++ Y)) =
      '\n' :: blankLinesPattern.subAux ['\n'] 0 (some '\n') Y := by
  have hm : blankLinesPattern.matchHere prev
      ('\n' :: (('\n' :: List.replicate j '\n') ++ Y)) = some (none, Y) := by
    rw [blankLinesPattern_matchHere_newline]
    exact blankLines_newlines hY j _
  have h := @Re.subAux_cons_of_some _ ['\n'] _ _ _ _ _ hm
  rw [lastChar_cons, lastChar_cons, lastChar_replicate] at h
  exact h

/-- An empty line between two newlines disappears. -/
theorem blankLines_sub_drop_blank {Y : List Char} (hY : StartsVisible Y) (j : Nat)
    (prev : Option Char) :
    blankLinesPattern.subAux ['\n'] 0 prev ('\n' :: '\n' :: (List.replicate j '\n' ++ Y)) =
      blankLinesPattern.subAux ['\n'] 0 prev ('\n' :: (List.replicate j '\n' ++ Y)) := by
  rw [blankLines_sub_newlines hY]
  cases j with
  | zero => exact (blankLines_sub_newline hY prev).symm
  | succ j => exact (blankLines_sub_newlines hY j prev).symm

/-! ### What cleaning computes -/

/-- Lines as the second pass leaves them: stripped, and (being pieces of a
`split('\n')`) without newlines. -/
def StrippedLines (ls : List (List Char)) : Prop :=
  ∀ l ∈ ls, Trimmed l ∧ '\n' ∉ l

theorem startsVisible_of_trimmed {l : List Char} (h : Trimmed l) : StartsVisible l :=
  fun d hd => h d (.inl hd)

/-- Joined stripped lines open with their leading empty lines, then a visible character. -/
theorem join_eq_newlines_append {ls : List (List Char)} (h : StrippedLines ls) :
    ∃ j Y, join ls = List.replicate j '\n' ++ Y ∧ StartsVisible Y := by
  induction ls with
  | nil => exact ⟨0, [], rfl, by simp [StartsVisible]⟩
  | cons l ls ih =>
    have hl := (h l (List.mem_cons_self _ _)).1
    cases ls with
    | nil => exact ⟨0, l, by simp, startsVisible_of_trimmed hl⟩
    | cons m ls =>
      rcases l with - | ⟨d, l⟩
      · obtain ⟨j, Y, hj, hY⟩ := ih fun l' hl' => h l' (List.mem_cons_of_mem _ hl')
        exact ⟨j + 1, Y, by rw [join_cons_cons, hj]; rfl, hY⟩
      · exact ⟨0, _, rfl, fun d' hd' => hl d' (by simp_all)⟩

/-- **The last two passes of `clean_content`**: over stripped lines, collapsing
`\n\s*\n` and stripping the whole keeps exactly the non-empty lines. -/
theorem strip_blankLines_sub_join : ∀ (ls : List (List Char)), StrippedLines ls →
    ∀ prev, strip (blankLinesPattern.subAux ['\n'] 0 prev (join ls)) = join (ls.filter (· ≠ []))
  | [], _, _ => rfl
  | [l], h, prev => by
    have hl := h l (List.mem_cons_self _ _)
    have := blankLines_sub_append hl.2 prev []
    rw [List.append_nil, Re.subAux_nil, List.append_nil] at this
    rw [join_singleton, this, strip_of_trimmed hl.1]
    by_cases hl₀ : l = [] <;> simp [hl₀]
  | [l, []], h, prev => by
    have hl := h l (List.mem_cons_self _ _)
    rw [join_cons_cons, join_singleton, blankLines_sub_append hl.2,
      blankLines_sub_newline (by simp [StartsVisible]), Re.subAux_nil,
      strip_append_space (w := ['\n']) (by simp), strip_of_trimmed hl.1]
    by_cases hl₀ : l = [] <;> simp [hl₀]
  | l :: [] :: m :: ls, h, prev => by
    have hl := h l (List.mem_cons_self _ _)
    have hrest : StrippedLines (m :: ls) := fun l' hl' =>
      h l' (List.mem_cons_of_mem _ (List.mem_cons_of_mem _ hl'))
    obtain ⟨j, Y, hj, hY⟩ := join_eq_newlines_append hrest
    have hdrop : blankLinesPattern.subAux ['\n'] 0 prev (join (l :: [] :: m :: ls)) =
        blankLinesPattern.subAux ['\n'] 0 prev (join (l :: m :: ls)) := by
      simp only [join_cons_cons, List.nil_append, hj, blankLines_sub_append hl.2,
        blankLines_sub_drop_blank hY]
    rw [hdrop, strip_blankLines_sub_join (l :: m :: ls)
      (fun l' hl' => h l' (by simp at hl'; rcases hl' with rfl | rfl | hl' <;> simp_all)) prev]
    simp [List.filter_cons]
  | l :: (c :: m) :: ls, h, prev => by
    have hl := h l (List.mem_cons_self _ _)
    have hm := h (c :: m) (by simp)
    have hc : isSpace c = false := hm.1 c (.inl rfl)
    have ih := strip_blankLines_sub_join ((c :: m) :: ls)
      (fun l' hl' => h l' (List.mem_cons_of_mem _ hl')) (some '\n')
    have hX : StartsVisible (join ((c :: m) :: ls)) := fun d hd => by
      simp only [join_cons, List.cons_append, List.head?_cons, Option.some.injEq] at hd
      exact hd ▸ hc
    rw [join_cons_cons, blankLines_sub_append hl.2, blankLines_sub_newline hX]
    rw [join_cons, blankLines_sub_append hm.2] at ih ⊢
    by_cases hl₀ : l = []
    · subst hl₀
      rw [List.nil_append, strip_cons_of_isSpace isSpace_newline, ih]
      simp [List.filter_cons]
    · rw [strip_append_newline hl.1 hl₀ (List.cons_append _ _ _) hc, ih]
      simp [List.filter_cons, hl₀, join_cons_cons]
termination_by ls => ls.length

/-- The lines `clean_content` works on: those of the comment-free text, stripped. -/
theorem strippedLines_map_strip (s : List Char) : StrippedLines ((s.splitOn '\n').map strip) := by
  intro l hl
  obtain ⟨l₀, hl₀, rfl⟩ := List.mem_map.mp hl
  exact ⟨trimmed_strip l₀, fun h => newline_not_mem_of_mem_splitOn hl₀ (mem_of_mem_strip h)⟩

/-- **What `clean_content` computes**: the non-empty stripped lines of the text
with its comments removed, joined by newlines. -/
theorem cleanContent_eq (content : List Char) :
    cleanContent content =
      join ((((commentPattern.sub [] content).splitOn '\n').map strip).filter (· ≠ [])) :=
  strip_blankLines_sub_join _ (strippedLines_map_strip _) none

/-- Cleaning leaves non-empty stripped lines without comments as they are. -/
theorem cleanContent_join {ls : List (List Char)} (h : StrippedLines ls) (hne : ∀ l ∈ ls, l ≠ [])
    (hc : ¬ HasComment (join ls)) : cleanContent (join ls) = join ls := by
  rw [cleanContent_eq, commentPattern_sub_of_not_hasComment hc]
  rcases ls with - | ⟨l, ls⟩
  · rfl
  · rw [splitOn_join (fun l hl => (h l hl).2) (List.cons_ne_nil _ _),
      List.map_congr_left (fun l hl => strip_of_trimmed (h l hl).1), List.map_id',
      List.filter_eq_self.mpr (fun l hl => by simpa using hne l hl)]

/-- The lines of a cleaned text: non-empty, stripped, without newlines. -/
theorem cleanContent_lines (content : List Char) :
    ∃ ls, cleanContent content = join ls ∧ StrippedLines ls ∧ ∀ l ∈ ls, l ≠ [] := by
  refine ⟨_, cleanContent_eq content, fun l hl => strippedLines_map_strip _ l
    (List.mem_filter.mp hl).1, fun l hl => by simpa using (List.mem_filter.mp hl).2⟩

/-- Cleaning is idempotent when its result holds no comment. -/
theorem cleanContent_cleanContent {content : List Char}
    (h : ¬ HasComment (cleanContent content)) :
    cleanContent (cleanContent content) = cleanContent content := by
  obtain ⟨ls, hls, hs, hne⟩ := cleanContent_lines content
  rw [hls] at h ⊢
  exact cleanContent_join hs hne h

theorem cleanContent_cleanContent_blank_lines :
    cleanContent (cleanContent " a \n\n \n b ".toList) = cleanContent " a \n\n \n b ".toList :=
  cleanContent_cleanContent (not_hasComment_of_not_mem (by decide))

/-- Cleaning is not idempotent: removing `<!---->` from `<!<!---->---->` splices
a new comment `<!---->` together, which only a second cleaning removes. -/
theorem cleanContent_not_idempotent :
    cleanContent "<!<!---->---->".toList = "<!---->".toList ∧
      cleanContent (cleanContent "<!<!---->---->".toList) = [] := by
  decide

end ReleaseScripts
