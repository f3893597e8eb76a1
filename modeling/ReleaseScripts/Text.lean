/-
ReleaseScripts/Text.lean

Python `str` values as lists of characters, and the `str` methods the two
release scripts call: `strip()`, `split('\n')`, `'\n'.join(...)`,
`startswith` and `in`.  `split` and `join` are Mathlib's `List.splitOn` and
`List.intercalate`; their round-trip lemmas are used as they stand.

Whitespace is Python's: `str.isspace`, which is also the set `\s` matches in a
str pattern, so `strip` and the patterns of `Regex.lean` agree on every
character.

The one list operation the specifications need beyond the library is the
stable de-duplication `dedupKeepFirst` (keep the first occurrence), stated
through Mathlib's `List.dedup`.
-/
import Mathlib.Data.List.DropRight
import Mathlib.Data.List.Infix
import Mathlib.Data.List.Dedup

namespace ReleaseScripts

/-! ### Whitespace and `strip` -/

/-- Python's whitespace (`str.isspace`, and `\s` in a str pattern). -/
def isSpace (c : Char) : Bool :=
  c = ' ' || ('\t' ≤ c && c ≤ '\r') || ('\x1c' ≤ c && c ≤ '\x1f') || c = '\x85' ||
    c = '\xa0' || c = '\u1680' || ('\u2000' ≤ c && c ≤ '\u200a') || c = '\u2028' ||
    c = '\u2029' || c = '\u202f' || c = '\u205f' || c = '\u3000'

@[simp] theorem isSpace_newline : isSpace '\n' = true := rfl

/-- `str.strip()`. -/
def strip (s : List Char) : List Char :=
  (s.dropWhile isSpace).rdropWhile isSpace

@[simp] theorem strip_nil : strip [] = [] := rfl

/-- No whitespace at either end: the texts `strip` returns. -/
def Trimmed (s : List Char) : Prop :=
  ∀ c, (s.head? = some c ∨ s.getLast? = some c) → isSpace c = false

theorem dropWhile_isSpace_of_trimmed {s : List Char} (h : Trimmed s) :
    s.dropWhile isSpace = s := by
  cases s with
  | nil => rfl
  | cons c s => exact List.dropWhile_cons_of_neg (by simp [h c (.inl rfl)])

theorem rdropWhile_isSpace_of_trimmed {s : List Char} (h : Trimmed s) :
    s.rdropWhile isSpace = s := by
  rw [List.rdropWhile_eq_self_iff]
  intro hs
  simp [h _ (.inr (List.getLast?_eq_getLast s hs))]

theorem strip_of_trimmed {s : List Char} (h : Trimmed s) : strip s = s := by
  rw [strip, dropWhile_isSpace_of_trimmed h, rdropWhile_isSpace_of_trimmed h]

theorem trimmed_strip (s : List Char) : Trimmed (strip s) := by
  intro c hc
  have hne : strip s ≠ [] := by rintro h; simp [h] at hc
  rcases hc with hc | hc
  · rw [List.head?_eq_head hne] at hc
    cases hc
    rw [show (strip s).head hne = _ from (List.rdropWhile_prefix isSpace _).head hne]
    exact List.head_dropWhile_not _ _ _
  · rw [List.getLast?_eq_getLast _ hne] at hc
    cases hc
    simpa using List.rdropWhile_last_not isSpace _ hne

@[simp] theorem strip_strip (s : List Char) : strip (strip s) = strip s :=
  strip_of_trimmed (trimmed_strip s)

theorem mem_of_mem_strip {s : List Char} {c : Char} (h : c ∈ strip s) : c ∈ s :=
  (List.dropWhile_suffix isSpace).subset ((List.rdropWhile_prefix isSpace _).subset h)

/-- A text holding a character other than whitespace does not strip to nothing. -/
theorem strip_ne_nil_of_mem {s : List Char} {c : Char} (hc : c ∈ s) (hsp : isSpace c = false) :
    strip s ≠ [] := by
  intro h
  rw [strip, List.rdropWhile_eq_nil_iff] at h
  rw [← List.takeWhile_append_dropWhile isSpace s, List.mem_append] at hc
  rcases hc with hc | hc
  · simpa [hsp] using List.mem_takeWhile_imp hc
  · simpa [hsp] using h c hc


/-- `strip` keeps a first character that is not whitespace. -/
theorem strip_cons_of_not_isSpace {c : Char} (hc : isSpace c = false) (s : List Char) :
    ∃ t, strip (c :: s) = c :: t := by
  rw [strip, List.dropWhile_cons_of_neg (by simp [hc])]
  rcases List.prefix_cons_iff.mp (List.rdropWhile_prefix (p := isSpace) (l := c :: s)) with
    h | ⟨t, h, -⟩
  · simpa [hc] using List.rdropWhile_eq_nil_iff.mp h c (List.mem_cons_self _ _)
  · exact ⟨t, h⟩

theorem rdropWhile_append_of_all {α : Type*} {p : α → Bool} {w : List α} (hw : ∀ c ∈ w, p c)
    (l : List α) : (l ++ w).rdropWhile p = l.rdropWhile p := by
  simp only [List.rdropWhile, List.reverse_append]
  rw [List.dropWhile_append_of_pos (by simpa using hw)]

theorem rdropWhile_append_of_exists {α : Type*} {p : α → Bool} {w : List α}
    (hw : ∃ c ∈ w, p c = false) (l : List α) :
    (l ++ w).rdropWhile p = l ++ w.rdropWhile p := by
  have hne : (w.reverse.dropWhile p).isEmpty = false := by
    obtain ⟨c, hc, hpc⟩ := hw
    rw [Bool.eq_false_iff]
    intro h
    have := List.dropWhile_eq_nil_iff.mp (List.isEmpty_iff.mp h) c (List.mem_reverse.mpr hc)
    simp [this] at hpc
  simp only [List.rdropWhile, List.reverse_append, List.dropWhile_append, hne,
    Bool.false_eq_true, if_false, List.reverse_reverse]

/-- Whitespace in front does not change what `strip` returns. -/
theorem strip_space_append {w : List Char} (hw : ∀ c ∈ w, isSpace c) (s : List Char) :
    strip (w ++ s) = strip s := by
  rw [strip, strip, List.dropWhile_append_of_pos hw]

theorem strip_cons_of_isSpace {c : Char} (hc : isSpace c) (s : List Char) :
    strip (c :: s) = strip s :=
  strip_space_append (w := [c]) (by simpa using hc) s

/-- Whitespace behind does not change what `strip` returns. -/
theorem strip_append_space {w : List Char} (hw : ∀ c ∈ w, isSpace c) (s : List Char) :
    strip (s ++ w) = strip s := by
  rw [strip, strip, List.dropWhile_append]
  split
  · rename_i h
    have h' : s.dropWhile isSpace = [] := List.isEmpty_iff.mp h
    rw [h', List.dropWhile_eq_nil_iff.mpr hw]
  · exact rdropWhile_append_of_all hw _

/-- A trimmed, non-empty first line survives `strip` of the whole text, when what
follows the newline starts with a visible character. -/
theorem strip_append_newline {l z : List Char} (hl : Trimmed l) (hl₀ : l ≠ [])
    {c : Char} {z' : List Char} (hz : z = c :: z') (hc : isSpace c = false) :
    strip (l ++ '\n' :: z) = l ++ '\n' :: strip z := by
  obtain ⟨d, l', rfl⟩ := List.exists_cons_of_ne_nil hl₀
  have hd : isSpace d = false := hl d (.inl rfl)
  subst hz
  rw [strip, strip, List.cons_append, List.dropWhile_cons_of_neg (by simp [hd]),
    List.dropWhile_cons_of_neg (by simp [hc]), ← List.cons_append,
    show (d :: l') ++ '\n' :: c :: z' = ((d :: l') ++ ['\n']) ++ c :: z' by simp,
    rdropWhile_append_of_exists ⟨c, List.mem_cons_self _ _, hc⟩]
  simp

/-! ### `split('\n')` and `'\n'.join(...)` -/

/-- `'\n'.join(lines)`. -/
def join (lines : List (List Char)) : List Char :=
  ['\n'].intercalate lines

@[simp] theorem join_nil : join [] = [] := rfl

@[simp] theorem join_singleton (l : List Char) : join [l] = l := by
  simp [join, List.intercalate]

theorem join_cons_cons (l m : List Char) (ls : List (List Char)) :
    join (l :: m :: ls) = l ++ '\n' :: join (m :: ls) := by
  simp [join, List.intercalate, List.intersperse_cons_cons]

theorem join_cons (l : List Char) (ls : List (List Char)) :
    join (l :: ls) = l ++ ls.flatMap ('\n' :: ·) := by
  induction ls generalizing l with
  | nil => simp
  | cons m ls ih => rw [join_cons_cons, ih]; simp

/-- A piece of `s.split('\n')` holds no newline. -/
theorem newline_not_mem_of_mem_splitOn {s l : List Char} (hl : l ∈ s.splitOn '\n') :
    '\n' ∉ l := by
  induction s generalizing l with
  | nil => simp_all
  | cons c s ih =>
    simp only [List.splitOn, List.splitOnP_cons] at hl ih
    split at hl
    · rcases List.mem_cons.mp hl with rfl | hl
      · simp
      · exact ih hl
    · rename_i hc
      rcases h : List.splitOnP (· == '\n') s with - | ⟨l₀, ls⟩
      · exact absurd h (List.splitOnP_ne_nil _ _)
      · rw [h] at hl ih
        simp only [List.modifyHead_cons, List.mem_cons] at hl
        rcases hl with rfl | hl
        · simp only [beq_iff_eq] at hc
          simpa [Ne.symm hc] using ih (List.mem_cons_self _ _)
        · exact ih (List.mem_cons_of_mem _ hl)

@[simp] theorem join_splitOn (s : List Char) : join (s.splitOn '\n') = s :=
  List.intercalate_splitOn s '\n'

theorem splitOn_join {ls : List (List Char)} (h : ∀ l ∈ ls, '\n' ∉ l) (hne : ls ≠ []) :
    (join ls).splitOn '\n' = ls :=
  List.splitOn_intercalate ls '\n' h hne

theorem join_concat {ls : List (List Char)} (h : ls ≠ []) (m : List Char) :
    join (ls ++ [m]) = join ls ++ '\n' :: m := by
  obtain ⟨l, ls, rfl⟩ := List.exists_cons_of_ne_nil h
  simp [join_cons]

theorem join_concat_append (ls : List (List Char)) (l t : List Char) :
    join (ls ++ [l ++ t]) = join (ls ++ [l]) ++ t := by
  rcases ls with - | ⟨m, ls⟩
  · simp
  · rw [join_concat (List.cons_ne_nil _ _), join_concat (List.cons_ne_nil _ _)]
    simp

theorem join_cons_cons_head (c : Char) (l : List Char) (ls : List (List Char)) :
    join ((c :: l) :: ls) = c :: join (l :: ls) := by
  simp [join_cons]

theorem mem_join_of_mem {ls : List (List Char)} {l : List Char} {c : Char} (hl : l ∈ ls)
    (hc : c ∈ l) : c ∈ join ls := by
  obtain ⟨m, ms, rfl⟩ := List.exists_cons_of_ne_nil (List.ne_nil_of_mem hl)
  rw [join_cons, List.mem_append, List.mem_flatMap]
  rcases List.mem_cons.mp hl with rfl | hl
  · exact .inl hc
  · exact .inr ⟨l, hl, List.mem_cons_of_mem _ hc⟩

/-! ### The visible lines of a text -/

/-- The lines of a text that hold something visible, stripped: all that the
parser reads of a text. -/
def visibleLines (s : List Char) : List (List Char) :=
  ((s.splitOn '\n').map strip).filter (· ≠ [])

theorem visibleLines_join {ls : List (List Char)} (h : ∀ l ∈ ls, '\n' ∉ l) :
    visibleLines (join ls) = (ls.map strip).filter (· ≠ []) := by
  rcases ls with - | ⟨l, ls⟩
  · rfl
  · rw [visibleLines, splitOn_join h (List.cons_ne_nil _ _)]

theorem newline_not_mem_of_mem_visibleLines {s l : List Char} (h : l ∈ visibleLines s) :
    '\n' ∉ l := by
  obtain ⟨l₀, hl₀, rfl⟩ := List.mem_map.mp (List.mem_filter.mp h).1
  exact fun hn => newline_not_mem_of_mem_splitOn hl₀ (mem_of_mem_strip hn)

/-- Joining the visible lines and reading them again gives them back. -/
theorem visibleLines_join_visibleLines (s : List Char) :
    visibleLines (join (visibleLines s)) = visibleLines s := by
  rw [visibleLines_join fun l hl => newline_not_mem_of_mem_visibleLines hl]
  have hstrip : ∀ l ∈ visibleLines s, strip l = l := fun l hl => by
    obtain ⟨l₀, -, rfl⟩ := List.mem_map.mp (List.mem_filter.mp hl).1
    exact strip_strip l₀
  rw [List.map_congr_left hstrip, List.map_id', List.filter_eq_self]
  intro l hl
  simpa using (List.mem_filter.mp hl).2

/-- A whitespace character at the end shows in no line. -/
theorem visibleLines_append_space {c : Char} (hc : isSpace c = true) (s : List Char) :
    visibleLines (s ++ [c]) = visibleLines s := by
  obtain ⟨ls, l, hls⟩ := (List.eq_nil_or_concat (s.splitOn '\n')).resolve_left
    (List.splitOnP_ne_nil _ _)
  rw [List.concat_eq_append] at hls
  have hls' : ∀ m ∈ ls, '\n' ∉ m := fun m hm => newline_not_mem_of_mem_splitOn (s := s) (by simp [hls, hm])
  have hl : '\n' ∉ l := newline_not_mem_of_mem_splitOn (s := s) (by simp [hls])
  have hs : s = join (ls ++ [l]) := by rw [← hls, join_splitOn]
  by_cases hn : c = '\n'
  · subst hn
    rw [hs, ← join_concat (by simp), visibleLines_join, visibleLines_join]
    · simp [List.filter_cons]
    · intro m hm; rcases List.mem_append.mp hm with hm | hm <;> simp_all
    · intro m hm; simp only [List.append_assoc, List.mem_append, List.mem_cons] at hm
      rcases hm with hm | hm | hm <;> simp_all
  · rw [hs, ← join_concat_append, visibleLines_join, visibleLines_join]
    · simp [strip_append_space (w := [c]) (by simpa using hc)]
    · intro m hm; rcases List.mem_append.mp hm with hm | hm <;> simp_all
    · intro m hm; rcases List.mem_append.mp hm with hm | hm <;> simp_all [Ne.symm hn]

/-- A whitespace character in front shows in no line. -/
theorem visibleLines_cons_space {c : Char} (hc : isSpace c = true) (s : List Char) :
    visibleLines (c :: s) = visibleLines s := by
  obtain ⟨l, ls, hls⟩ := List.exists_cons_of_ne_nil
    (show s.splitOn '\n' ≠ [] from List.splitOnP_ne_nil _ s)
  have hls' : ∀ m ∈ ls, '\n' ∉ m := fun m hm => newline_not_mem_of_mem_splitOn (s := s) (by simp [hls, hm])
  have hl : '\n' ∉ l := newline_not_mem_of_mem_splitOn (s := s) (by simp [hls])
  have hs : s = join (l :: ls) := by rw [← hls, join_splitOn]
  by_cases hn : c = '\n'
  · subst hn
    rw [hs, show '\n' :: join (l :: ls) = join ([] :: l :: ls) by rw [join_cons_cons]; rfl,
      visibleLines_join, visibleLines_join]
    · simp [List.filter_cons]
    · intro m hm; rcases List.mem_cons.mp hm with hm | hm <;> simp_all
    · intro m hm
      simp only [List.mem_cons] at hm
      rcases hm with rfl | rfl | hm
      exacts [List.not_mem_nil _, hl, hls' m hm]
  · rw [hs, ← join_cons_cons_head, visibleLines_join, visibleLines_join]
    · simp [strip_cons_of_isSpace hc]
    · intro m hm; rcases List.mem_cons.mp hm with hm | hm <;> simp_all
    · intro m hm; rcases List.mem_cons.mp hm with hm | hm <;> simp_all [Ne.symm hn]

/-- `strip` changes no visible line. -/
theorem visibleLines_strip (s : List Char) : visibleLines (strip s) = visibleLines s := by
  have hdrop : ∀ t : List Char, visibleLines (t.dropWhile isSpace) = visibleLines t := by
    intro t
    induction t with
    | nil => rfl
    | cons c t ih =>
      by_cases hc : isSpace c
      · rw [List.dropWhile_cons_of_pos hc, ih, visibleLines_cons_space hc]
      · rw [List.dropWhile_cons_of_neg (by simpa using hc)]
  have hrdrop : ∀ t : List Char, visibleLines (t.rdropWhile isSpace) = visibleLines t := by
    intro t
    induction t using List.reverseRecOn with
    | nil => rfl
    | append_singleton t c ih =>
      by_cases hc : isSpace c
      · rw [List.rdropWhile_concat_pos isSpace t c hc, ih, visibleLines_append_space hc]
      · rw [List.rdropWhile_concat_neg isSpace t c (by simpa using hc)]
  rw [strip, hrdrop, hdrop]

/-! ### Stable de-duplication -/

/-- Stable de-duplication: the first occurrence of each element, in order
(Mathlib's `dedup` keeps the last one, so it runs on the reversed list). -/
def dedupKeepFirst {α : Type*} [DecidableEq α] (l : List α) : List α :=
  l.reverse.dedup.reverse

section Dedup

variable {α : Type*} [DecidableEq α]

@[simp] theorem dedupKeepFirst_nil : dedupKeepFirst ([] : List α) = [] := rfl

theorem dedupKeepFirst_concat (l : List α) (a : α) :
    dedupKeepFirst (l ++ [a]) = if a ∈ l then dedupKeepFirst l else dedupKeepFirst l ++ [a] := by
  unfold dedupKeepFirst
  split <;> rename_i h
  · simp [List.dedup_cons_of_mem (List.mem_reverse.mpr h)]
  · rw [List.reverse_append, List.reverse_singleton, List.singleton_append,
      List.dedup_cons_of_not_mem (by simpa using h)]
    simp

@[simp] theorem mem_dedupKeepFirst {l : List α} {a : α} : a ∈ dedupKeepFirst l ↔ a ∈ l := by
  simp [dedupKeepFirst, List.mem_dedup]

theorem nodup_dedupKeepFirst (l : List α) : (dedupKeepFirst l).Nodup :=
  List.nodup_reverse.mpr (List.nodup_dedup _)

theorem dedupKeepFirst_of_nodup {l : List α} (h : l.Nodup) : dedupKeepFirst l = l := by
  simp [dedupKeepFirst, (List.nodup_reverse.mpr h).dedup]

/-- `for x in new: if x not in l: l.append(x)`. -/
def appendNew (l new : List α) : List α :=
  new.foldl (fun l x => if x ∈ l then l else l ++ [x]) l

@[simp] theorem appendNew_nil (l : List α) : appendNew l [] = l := rfl

theorem appendNew_singleton (l : List α) (x : α) :
    appendNew l [x] = if x ∈ l then l else l ++ [x] := rfl

theorem appendNew_append (l a b : List α) : appendNew l (a ++ b) = appendNew (appendNew l a) b :=
  List.foldl_append _ _ _ _

/-- Appending the new elements to a de-duplicated list de-duplicates the whole. -/
theorem appendNew_dedupKeepFirst (a b : List α) :
    appendNew (dedupKeepFirst a) b = dedupKeepFirst (a ++ b) := by
  induction b generalizing a with
  | nil => simp
  | cons x b ih =>
    rw [show x :: b = [x] ++ b from rfl, appendNew_append, appendNew_singleton, ← List.append_assoc,
      ← ih, dedupKeepFirst_concat]
    simp only [mem_dedupKeepFirst]

/-- Appending elements that are all there already changes nothing. -/
theorem appendNew_of_subset {l : List α} : ∀ {new : List α}, (∀ x ∈ new, x ∈ l) → appendNew l new = l
  | [], _ => rfl
  | x :: new, h => by
    rw [appendNew, List.foldl_cons, if_pos (h x (List.mem_cons_self _ _))]
    exact appendNew_of_subset fun y hy => h y (List.mem_cons_of_mem _ hy)

/-- The loop only appends: what was in the list stays where it was. -/
theorem prefix_appendNew : ∀ (l new : List α), l <+: appendNew l new
  | _, [] => List.prefix_refl _
  | l, x :: new => by
    rw [show x :: new = [x] ++ new from rfl, appendNew_append, appendNew_singleton]
    refine List.IsPrefix.trans ?_ (prefix_appendNew _ new)
    split_ifs
    · exact List.prefix_refl _
    · exact List.prefix_append _ _

/-- De-duplicating a longer list extends the de-duplication of its prefix. -/
theorem dedupKeepFirst_prefix_append (a b : List α) :
    dedupKeepFirst a <+: dedupKeepFirst (a ++ b) :=
  appendNew_dedupKeepFirst a b ▸ prefix_appendNew _ _

end Dedup

end ReleaseScripts
