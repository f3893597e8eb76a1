/-
ReleaseScripts/Parse.lean

`parse_release_notes` of `release-notes.py`: a scan over the cleaned lines
with one variable, `current_category`, that a valid `### <name>` heading sets
and any other heading resets.

Design.  Python's dict of categories is `Notes`, an association list whose
keys stay distinct by construction; the two updates the scripts make are
`touch` (`if c not in d: d[c] = []`) and `push` (`d[c].append(e)`).  The
scan is the step function `scanLine` on the state `Scan`, and the parser is
its fold.

Main result: `parseReleaseNotes_eq`.  The declarative reading says which
keys the dict has (the valid heading texts, in order of first occurrence) and
what each maps to (the bullets whose most recent heading carries that name),
with no scan state in it; the scan meets it by induction over the lines,
through one step lemma (`scanInv_concat`).
-/
import ReleaseScripts.Clean

namespace ReleaseScripts

/-! ### Categories -/

/-- The six changelog categories. -/
inductive Category
  | added | changed | deprecated | removed | fixed | security
  deriving DecidableEq, Repr

/-- The category's name, as the scripts spell it. -/
def Category.name : Category → List Char
  | .added => "Added".toList
  | .changed => "Changed".toList
  | .deprecated => "Deprecated".toList
  | .removed => "Removed".toList
  | .fixed => "Fixed".toList
  | .security => "Security".toList

/-- `VALID_CATEGORIES`. -/
def validCategories : List Category :=
  [.added, .changed, .deprecated, .removed, .fixed, .security]

/-- `name in VALID_CATEGORIES`, giving the category so named. -/
def Category.ofName? (s : List Char) : Option Category :=
  validCategories.find? (·.name == s)

@[simp] theorem Category.ofName?_name (c : Category) : Category.ofName? c.name = some c := by
  cases c <;> rfl

theorem Category.name_of_ofName? {s : List Char} {c : Category} (h : Category.ofName? s = some c) :
    c.name = s := by
  simpa using List.find?_some h

theorem Category.name_injective : Function.Injective Category.name := fun a b h => by
  simpa [h] using (Category.ofName?_name a).symm

/-! ### The dict of categories -/

/-- A Python dict from category to entries: keys in insertion order, each once. -/
structure Notes where
  entries : List (Category × List (List Char))
  nodup : (entries.map Prod.fst).Nodup
  deriving DecidableEq

namespace Notes

/-- `{}`. -/
def empty : Notes := ⟨[], List.nodup_nil⟩

/-- The keys, in insertion order. -/
def keys (d : Notes) : List Category := d.entries.map Prod.fst

/-- `d.get(c, [])`. -/
def get (d : Notes) (c : Category) : List (List Char) :=
  (d.entries.lookup c).getD []

/-- `if c not in d: d[c] = []`. -/
def touch (d : Notes) (c : Category) : Notes :=
  if h : c ∈ d.keys then d
  else ⟨d.entries ++ [(c, [])], by
    simpa [List.nodup_append, keys] using And.intro d.nodup h⟩

/-- `d[c].append(e)`. -/
def push (d : Notes) (c : Category) (e : List Char) : Notes :=
  ⟨d.entries.map fun ke => (ke.1, if ke.1 = c then ke.2 ++ [e] else ke.2), by
    simpa [Function.comp_def] using d.nodup⟩

@[simp] theorem keys_empty : empty.keys = [] := rfl

@[simp] theorem get_empty (c : Category) : empty.get c = [] := rfl

theorem keys_touch (d : Notes) (c : Category) :
    (d.touch c).keys = if c ∈ d.keys then d.keys else d.keys ++ [c] := by
  unfold touch
  split <;> simp_all [keys]

theorem lookup_of_not_mem {l : List (Category × List (List Char))} {c : Category}
    (h : c ∉ l.map Prod.fst) : l.lookup c = none :=
  List.lookup_eq_none_iff.mpr fun p hp => by
    simpa using fun hc : c = p.1 => h (List.mem_map.mpr ⟨p, hp, hc.symm⟩)

theorem exists_lookup_of_mem {l : List (Category × List (List Char))} {c : Category}
    (h : c ∈ l.map Prod.fst) : ∃ w, l.lookup c = some w := by
  obtain ⟨p, hp, rfl⟩ := List.mem_map.mp h
  exact Option.isSome_iff_exists.mp (List.lookup_isSome_iff.mpr ⟨p, hp, by simp⟩)

theorem lookup_append_of_not_mem {l : List (Category × List (List Char))} {c c' : Category}
    {v : List (List Char)} (h : c ∉ l.map Prod.fst) :
    (l ++ [(c, v)]).lookup c' = if c' = c then some v else l.lookup c' := by
  rw [List.lookup_append]
  by_cases h' : c' = c
  · subst h'
    simp [lookup_of_not_mem h]
  · simp [List.lookup_cons, (beq_eq_false_iff_ne).mpr h', h']

theorem get_of_not_mem {d : Notes} {c : Category} (h : c ∉ d.keys) : d.get c = [] := by
  simp [get, lookup_of_not_mem h]

@[simp] theorem get_touch (d : Notes) (c c' : Category) : (d.touch c).get c' = d.get c' := by
  unfold touch get
  split
  · rfl
  · rename_i h
    rw [lookup_append_of_not_mem h]
    split
    · subst c'
      simp [lookup_of_not_mem h]
    · rfl

@[simp] theorem keys_push (d : Notes) (c : Category) (e : List Char) :
    (d.push c e).keys = d.keys := by
  simp [push, keys, Function.comp_def]

theorem lookup_push (l : List (Category × List (List Char))) (c c' : Category) (e : List Char) :
    (l.map fun ke => (ke.1, if ke.1 = c then ke.2 ++ [e] else ke.2)).lookup c' =
      (l.lookup c').map fun es => if c' = c then es ++ [e] else es := by
  induction l with
  | nil => rfl
  | cons kv l ih =>
    obtain ⟨k, w⟩ := kv
    by_cases hk : c' = k
    · subst hk
      simp [List.lookup_cons]
    · simp [List.lookup_cons, (beq_eq_false_iff_ne).mpr hk, ih]

theorem get_push {d : Notes} {c : Category} (hc : c ∈ d.keys) (e : List Char) (c' : Category) :
    (d.push c e).get c' = if c' = c then d.get c' ++ [e] else d.get c' := by
  unfold push get
  rw [lookup_push]
  by_cases h : c' = c
  · subst h
    obtain ⟨w, hw⟩ := exists_lookup_of_mem hc
    simp [hw]
  · cases d.entries.lookup c' <;> simp [h]

theorem entries_eq_aux : ∀ l : List (Category × List (List Char)), (l.map Prod.fst).Nodup →
    l = (l.map Prod.fst).map fun c => (c, (l.lookup c).getD [])
  | [], _ => rfl
  | (k, w) :: l, h => by
    simp only [List.map_cons, List.nodup_cons] at h
    simp only [List.map_cons, List.lookup_cons, beq_self_eq_true, Option.getD_some, List.cons.injEq,
      true_and]
    refine (entries_eq_aux l h.2).trans (List.map_congr_left fun c hc => ?_)
    have : c ≠ k := by rintro rfl; exact h.1 hc
    simp [(beq_eq_false_iff_ne).mpr this]

/-- A dict is its keys, each paired with what it maps to. -/
theorem entries_eq (d : Notes) : d.entries = d.keys.map fun c => (c, d.get c) :=
  entries_eq_aux d.entries d.nodup

end Notes

/-! ### The scan -/

/-- `^###\s+(.+)$`, for `re.match` on one stripped line. -/
def headingPattern : Re :=
  .seq .bos <| .seq (.lit ['#', '#', '#']) <| .seq (.rep isSpace 1 true) <|
    .seq (.group (.rep (· != '\n') 1 true)) .eol

/-- `category_match.group(1)`, when the line matches `headingPattern`. -/
def headingGroup (line : List Char) : Option (List Char) :=
  (headingPattern.matchHere none line).bind (·.1)

/-- `line.startswith('-') or line.startswith('*')`. -/
def isBullet (line : List Char) : Bool :=
  line.head? == some '-' || line.head? == some '*'

/-- The loop's state: the dict built so far and `current_category`. -/
structure Scan where
  categories : Notes
  current : Option Category

/-- One pass of the loop over the cleaned content's lines. -/
def scanLine (st : Scan) (raw : List Char) : Scan :=
  let line := strip raw
  if line = [] then st
  else
    match headingGroup line with
    | some category =>
      match Category.ofName? (strip category) with
      | some c => ⟨st.categories.touch c, some c⟩
      | none => ⟨st.categories, none⟩
    | none =>
      if isBullet line then
        match st.current with
        | some c =>
          let entry := strip line.tail
          if entry = [] then st else ⟨st.categories.push c entry, some c⟩
        | none => st
      else st

/-- `parse_release_notes`. -/
def parseReleaseNotes (content : List Char) : Notes :=
  (((cleanContent content).splitOn '\n').foldl scanLine ⟨Notes.empty, none⟩).categories

/-- A heading line starts with `###`. -/
theorem headingGroup_eq_none_of_head {line : List Char} (h : line.head? ≠ some '#') :
    headingGroup line = none := by
  cases line with
  | nil => rfl
  | cons c line =>
    have hc : c ≠ '#' := fun hc => h (by simp [hc])
    simp [headingGroup, headingPattern, Re.matchHere, Re.run, Re.lit, Re.word, hc]

theorem not_isBullet_of_headingGroup {line t : List Char} (h : headingGroup line = some t) :
    isBullet line = false := by
  by_cases hh : line.head? = some '#'
  · simp [isBullet, hh]
  · simp [headingGroup_eq_none_of_head hh] at h

/-! #### One step of the scan -/

theorem scanLine_of_strip_eq_nil (st : Scan) {raw : List Char} (h : strip raw = []) :
    scanLine st raw = st := by
  simp [scanLine, h]

theorem scanLine_strip (st : Scan) (raw : List Char) : scanLine st (strip raw) = scanLine st raw := by
  simp [scanLine]

/-- The loop skips blank lines and strips the others, so it runs over the
non-empty stripped lines alone. -/
theorem foldl_scanLine_eq (st : Scan) (raws : List (List Char)) :
    raws.foldl scanLine st = ((raws.map strip).filter (· ≠ [])).foldl scanLine st := by
  induction raws generalizing st with
  | nil => rfl
  | cons raw raws ih =>
    by_cases h : strip raw = []
    · simp [h, scanLine_of_strip_eq_nil st h, ih]
    · simp [h, ih, scanLine_strip]

/-! ### The declarative reading -/

/-- The lines the scan reads: the cleaned content's lines, stripped, empty ones dropped. -/
def contentLines (content : List Char) : List (List Char) :=
  (((cleanContent content).splitOn '\n').map strip).filter (· ≠ [])

/-- A heading line's text: the stripped group of `^###\s+(.+)$`. -/
def headingText (line : List Char) : Option (List Char) :=
  (headingGroup line).map strip

/-- The text of the last heading among the first `i` lines. -/
def lastHeading (ls : List (List Char)) (i : Nat) : Option (List Char) :=
  ((ls.take i).filterMap headingText).getLast?

/-- The categories the valid headings name, each once, in order of first occurrence. -/
def headingKeys (ls : List (List Char)) : List Category :=
  dedupKeepFirst (ls.filterMap fun l => (headingText l).bind Category.ofName?)

/-- In line order, the non-empty remainders of the bullets whose most recent
heading reads `c`'s name. -/
def bulletsUnder (ls : List (List Char)) (c : Category) : List (List Char) :=
  (ls.enum.filter fun il => isBullet il.2 && lastHeading ls il.1 == some c.name &&
    strip il.2.tail != []).map fun il => strip il.2.tail

theorem headingKeys_concat (ls : List (List Char)) (l : List Char) :
    headingKeys (ls ++ [l]) =
      match (headingText l).bind Category.ofName? with
      | some c => if c ∈ headingKeys ls then headingKeys ls else headingKeys ls ++ [c]
      | none => headingKeys ls := by
  unfold headingKeys
  rcases h : (headingText l).bind Category.ofName? with - | c
  · simp [h]
  · simp [h, dedupKeepFirst_concat]

theorem lastHeading_concat_of_le {ls : List (List Char)} {i : Nat} (hi : i ≤ ls.length)
    (l : List Char) : lastHeading (ls ++ [l]) i = lastHeading ls i := by
  rw [lastHeading, lastHeading, List.take_append_of_le_length hi]

theorem lastHeading_concat (ls : List (List Char)) (l : List Char) :
    lastHeading (ls ++ [l]) (ls.length + 1) = (headingText l).or (lastHeading ls ls.length) := by
  rw [lastHeading, lastHeading, List.take_of_length_le (by simp), List.take_length,
    List.filterMap_append, List.getLast?_append]
  cases h : headingText l <;> simp [h]

theorem bulletsUnder_concat (ls : List (List Char)) (l : List Char) (c : Category) :
    bulletsUnder (ls ++ [l]) c = bulletsUnder ls c ++
      if isBullet l && lastHeading ls ls.length == some c.name && strip l.tail != [] then
        [strip l.tail] else [] := by
  unfold bulletsUnder
  rw [List.enum_append, List.filter_append, List.map_append,
    List.filter_congr fun il hil => by
      rw [lastHeading_concat_of_le (Nat.le_of_lt (List.fst_lt_of_mem_enum hil))]]
  simp only [List.enumFrom_cons, List.enumFrom_nil, List.filter_cons, List.filter_nil,
    lastHeading_concat_of_le (le_refl _)]
  split <;> simp

/-- A heading the scan stands under names a key the spec expects. -/
theorem mem_headingKeys_of_lastHeading {ls : List (List Char)} {i : Nat} {t : List Char}
    {c : Category} (ht : lastHeading ls i = some t) (hc : Category.ofName? t = some c) :
    c ∈ headingKeys ls := by
  obtain ⟨l, hl, hlt⟩ := List.mem_filterMap.mp (List.mem_of_getLast?_eq_some ht)
  exact mem_dedupKeepFirst.mpr
    (List.mem_filterMap.mpr ⟨l, List.mem_of_mem_take hl, by simp [hlt, hc]⟩)

/-- What the scan holds after reading the lines `ls`. -/
structure ScanInv (ls : List (List Char)) (st : Scan) : Prop where
  keys : st.categories.keys = headingKeys ls
  get : ∀ c, st.categories.get c = bulletsUnder ls c
  current : st.current = (lastHeading ls ls.length).bind Category.ofName?

theorem scanInv_nil : ScanInv [] ⟨Notes.empty, none⟩ :=
  ⟨rfl, fun _ => rfl, rfl⟩

/-- The scan stands under a category exactly when the last heading read names it. -/
theorem ScanInv.current_eq_some_iff {ls : List (List Char)} {st : Scan} (h : ScanInv ls st)
    (c : Category) : st.current = some c ↔ lastHeading ls ls.length = some c.name := by
  rw [h.current]
  constructor
  · intro hc
    obtain ⟨t, ht, htc⟩ := Option.bind_eq_some.mp hc
    rw [ht, ← Category.name_of_ofName? htc]
  · intro hc
    simp [hc]

/-- **One step of the scan keeps the declarative reading.** -/
theorem scanInv_concat {ls : List (List Char)} {st : Scan} (h : ScanInv ls st) {l : List Char}
    (hl : l ≠ []) (hs : strip l = l) : ScanInv (ls ++ [l]) (scanLine st l) := by
  have hcur := h.current
  have hbul : ∀ c, bulletsUnder (ls ++ [l]) c = bulletsUnder ls c ++
      if isBullet l ∧ st.current = some c ∧ strip l.tail ≠ [] then [strip l.tail] else [] := by
    intro c
    rw [bulletsUnder_concat]
    simp [h.current_eq_some_iff, and_assoc]
  rcases hg : headingGroup l with - | t
  · -- not a heading: the keys and the last heading stay
    have hkeys : headingKeys (ls ++ [l]) = headingKeys ls := by
      simp [headingKeys_concat, headingText, hg]
    have hlast : lastHeading (ls ++ [l]) (ls ++ [l]).length = lastHeading ls ls.length := by
      rw [List.length_append, List.length_singleton, lastHeading_concat]
      simp [headingText, hg]
    have keep : scanLine st l = st → (∀ c, bulletsUnder (ls ++ [l]) c = bulletsUnder ls c) →
        ScanInv (ls ++ [l]) (scanLine st l) := fun hst hb =>
      ⟨by rw [hst, hkeys, h.keys], fun c => by rw [hst, hb, h.get],
        by rw [hst, hlast]; exact hcur⟩
    by_cases hb : isBullet l
    · rcases hc : st.current with - | c
      · exact keep (by simp [scanLine, hs, hl, hg, hb, hc]) fun c' => by simp [hbul, hc]
      · by_cases he : strip l.tail = []
        · exact keep (by simp [scanLine, hs, hl, hg, hb, hc, he]) fun c' => by simp [hbul, he]
        · -- a bullet under the current category is appended to it
          have hmem : c ∈ st.categories.keys := by
            rw [h.keys]
            exact mem_headingKeys_of_lastHeading ((h.current_eq_some_iff c).mp hc)
              (Category.ofName?_name c)
          have hst : scanLine st l = ⟨st.categories.push c (strip l.tail), some c⟩ := by
            simp [scanLine, hs, hl, hg, hb, hc, he]
          refine ⟨by rw [hst, Notes.keys_push, hkeys, h.keys], fun c' => ?_,
            by rw [hst, hlast, ← hcur, hc]⟩
          rw [hst, Notes.get_push hmem, hbul, h.get, hc]
          by_cases hcc : c' = c
          · subst hcc; simp [hb, he]
          · simp [hb, he, hcc, Ne.symm hcc]
    · exact keep (by simp [scanLine, hs, hl, hg, hb]) fun c' => by simp [hbul, hb]
  · -- a heading: a valid one becomes current and keyed, any other resets
    have hb := not_isBullet_of_headingGroup hg
    have hlast : lastHeading (ls ++ [l]) (ls ++ [l]).length = some (strip t) := by
      rw [List.length_append, List.length_singleton, lastHeading_concat]
      simp [headingText, hg]
    rcases ho : Category.ofName? (strip t) with - | c
    · have hst : scanLine st l = ⟨st.categories, none⟩ := by simp [scanLine, hs, hl, hg, ho]
      refine ⟨?_, fun c' => ?_, by rw [hst, hlast]; simp [ho]⟩
      · rw [hst, headingKeys_concat, h.keys]
        simp [headingText, hg, ho]
      · rw [hst, hbul, h.get]
        simp [hb]
    · have hst : scanLine st l = ⟨st.categories.touch c, some c⟩ := by
        simp [scanLine, hs, hl, hg, ho]
      refine ⟨?_, fun c' => ?_, by rw [hst, hlast]; simp [ho]⟩
      · rw [hst, Notes.keys_touch, headingKeys_concat, h.keys]
        simp [headingText, hg, ho]
      · rw [hst, Notes.get_touch, hbul, h.get]
        simp [hb]

/-- The whole scan keeps the declarative reading. -/
theorem scanInv_foldl (ls : List (List Char)) (h : ∀ l ∈ ls, l ≠ [] ∧ strip l = l) :
    ScanInv ls (ls.foldl scanLine ⟨Notes.empty, none⟩) := by
  induction ls using List.reverseRecOn with
  | nil => exact scanInv_nil
  | append_singleton ls l ih =>
    have hl := h l (by simp)
    rw [List.foldl_concat]
    exact scanInv_concat (ih fun l' hl' => h l' (by simp [hl'])) hl.1 hl.2

theorem scanInv_contentLines (content : List Char) :
    ScanInv (contentLines content) ((contentLines content).foldl scanLine ⟨Notes.empty, none⟩) :=
  scanInv_foldl _ fun l hl => by
    obtain ⟨hl, hne⟩ := List.mem_filter.mp hl
    obtain ⟨l₀, -, rfl⟩ := List.mem_map.mp hl
    exact ⟨by simpa using hne, strip_strip l₀⟩

theorem parseReleaseNotes_eq_foldl (content : List Char) :
    parseReleaseNotes content = ((contentLines content).foldl scanLine ⟨Notes.empty, none⟩).categories := by
  rw [parseReleaseNotes, foldl_scanLine_eq, ← contentLines]

theorem keys_parseReleaseNotes (content : List Char) :
    (parseReleaseNotes content).keys = headingKeys (contentLines content) := by
  rw [parseReleaseNotes_eq_foldl, (scanInv_contentLines content).keys]

theorem get_parseReleaseNotes (content : List Char) (c : Category) :
    (parseReleaseNotes content).get c = bulletsUnder (contentLines content) c := by
  rw [parseReleaseNotes_eq_foldl, (scanInv_contentLines content).get]

/-- **`parse_release_notes` meets its declarative reading**: the dict's keys
are the categories the valid headings name, in order of first occurrence, and
each maps to the bullets, in line order and with repetitions, whose most recent
heading reads its name; a bullet under no heading, or under an invalid one,
lands nowhere. -/
theorem parseReleaseNotes_eq (content : List Char) :
    (parseReleaseNotes content).entries =
      (headingKeys (contentLines content)).map fun c => (c, bulletsUnder (contentLines content) c) := by
  rw [Notes.entries_eq, keys_parseReleaseNotes]
  exact List.map_congr_left fun c _ => by rw [get_parseReleaseNotes]

/-! ### What the parser reads and returns -/

/-- The parser reads the visible lines of the text once its comments are gone. -/
theorem contentLines_eq (content : List Char) :
    contentLines content = visibleLines (commentPattern.sub [] content) := by
  rw [show contentLines content = visibleLines (cleanContent content) from rfl, cleanContent_eq]
  exact visibleLines_join_visibleLines _

/-- A parsed entry: a non-empty stripped text on one line. -/
structure EntryText (e : List Char) : Prop where
  ne_nil : e ≠ []
  trimmed : Trimmed e
  newline_not_mem : '\n' ∉ e

theorem entryText_of_mem_bulletsUnder {ls : List (List Char)} {c : Category} {e : List Char}
    (hls : ∀ l ∈ ls, '\n' ∉ l) (h : e ∈ bulletsUnder ls c) : EntryText e := by
  obtain ⟨il, hil, rfl⟩ := List.mem_map.mp h
  obtain ⟨hil, hsel⟩ := List.mem_filter.mp hil
  have hnl := hls il.2 (List.snd_mem_of_mem_enum hil)
  simp only [Bool.and_eq_true, bne_iff_ne, ne_eq] at hsel
  exact ⟨hsel.2, trimmed_strip _, fun hn => hnl (List.mem_of_mem_tail (mem_of_mem_strip hn))⟩

/-- Every entry the parser returns is a non-empty stripped text on one line. -/
theorem entryText_of_mem_get {content : List Char} {c : Category} {e : List Char}
    (h : e ∈ (parseReleaseNotes content).get c) : EntryText e := by
  rw [get_parseReleaseNotes] at h
  exact entryText_of_mem_bulletsUnder (fun l hl => newline_not_mem_of_mem_visibleLines hl) h

end ReleaseScripts
