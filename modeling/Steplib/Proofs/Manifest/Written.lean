import Steplib.Manifest.Basic
import Steplib.Proofs.Manifest.Entities
import Steplib.Proofs.Manifest.Events

/-!
# Written manifests

Libraries are written as a build manifest with one entry for each library. White space and comments
may stand between any two tags, the two parts of an entry may come in either order, and names may
be escaped in any way. What is known while such a manifest is read changes with the elements alone:
an element with a name sets one field, and the end of an entry enters its library after those that
were entered before it.

## Main definitions

* `Manifest.document`: the manifests with the given libraries.
* `Manifest.Leads`: reading any text of a language leads from one standing to another.

## Main results

* `Manifest.leads_named`, `Manifest.leads_entry`, `Manifest.leads_document`: what is known after a
  name, an entry and a manifest.
* `Manifest.libraries_read_back`: the libraries of a written manifest are read back.
-/

namespace Steplib.Manifest

open Markup

/-! ### Manifests as texts -/

/-- An element with its content between its tags. -/
def element (tag : String) (content : Language Char) : Language Char :=
  opening tag * gap * content * (gap * closing tag)

/-- An element that holds a name, which is written in any way. -/
def named (tag name : String) : Language Char :=
  element tag (spellings name.toList)

/-- Elements one after the other. -/
def series (elements : List (Language Char)) : Language Char :=
  (elements.map (· * gap)).prod

/-- The element that holds the steplibs of a library; without steplibs it can be one tag. -/
def steplibsElement (names : List String) : Language Char :=
  element "Steplibs" (series (names.map (named "Steplib"))) +
    if names = [] then selfClosing "Steplibs" else 0

/-- The entry of a library, its two parts in either order. -/
def entry (library : String × List String) : Language Char :=
  element "LibrarySteplib"
    (named "Library" library.1 * gap * steplibsElement library.2 +
      steplibsElement library.2 * gap * named "Library" library.1)

/-- The manifests with the libraries; a declaration may stand at the start. -/
def document (libraries : List (String × List String)) : Language Char :=
  (1 + instruction) *
    (gap * (element "BuildDescription" (element "LibrarySteplibs" (series (libraries.map entry))) *
      gap))

/-- The name is read as it is written: it is in upper case and no blank stands at its ends. -/
def IsPlain (name : String) : Prop :=
  name ≠ "" ∧ Ascii.upper name = name ∧ Text.trimmed name = name

instance (name : String) : Decidable (IsPlain name) :=
  inferInstanceAs (Decidable (_ ∧ _ ∧ _))

/-! ### Reading on -/

/-- What a reader makes of the events that are left. -/
def Reader.finish (r : Reader) (es : Events) : Except ManifestError Manifest := do
  let reader ← es.events.foldlM Reader.step r
  match es.malformed with
  | none => return reader.manifest
  | some (problem, position) => throw ⟨position, .inl problem⟩

/-- Where the reading of a manifest stands: the open elements, the innermost first, and what is
known. -/
structure Standing where
  names : List (List Char)
  reader : Reader

/-- What comes of a text that is left. -/
def Standing.readOn (s : Standing) (offset : Nat) (cs : List Char) :
    Except ManifestError Manifest :=
  s.reader.finish (eventsFrom s.names offset cs)

/-- Reading any text of the language leads from one standing to the other, whatever comes next. -/
def Leads (l : Language Char) (s s' : Standing) : Prop :=
  ∀ chunk ∈ l, ∀ offset rest, ∃ after, s.readOn offset (chunk ++ rest) = s'.readOn after rest

variable {l m : Language Char} {s s' s'' : Standing} {r r' : Reader} {names : List (List Char)}
  {cs raw rest : List Char} {tag name : String} {library : String × List String}

theorem finish_cons {e : Event} (h : r.step e = .ok r') (es : Events) :
    r.finish (es.cons e) = r'.finish es := by
  simp only [Reader.finish, Events.cons, List.foldlM_cons, h]
  rfl

theorem parse_eq_finish (text : String) : parse text = Reader.finish {} (events text) := rfl

theorem leads_one (s : Standing) : Leads 1 s s := by
  intro chunk hchunk offset rest
  rw [(Language.mem_one chunk).1 hchunk]
  exact ⟨offset, rfl⟩

theorem Leads.add (hl : Leads l s s') (hm : Leads m s s') : Leads (l + m) s s' := by
  intro chunk hchunk
  rcases (Language.mem_add l m chunk).1 hchunk with h | h
  · exact hl chunk h
  · exact hm chunk h

theorem Leads.mul (hl : Leads l s s') (hm : Leads m s' s'') : Leads (l * m) s s'' := by
  intro chunk hchunk offset rest
  obtain ⟨a, ha, b, hb, rfl⟩ := Language.mem_mul.1 hchunk
  obtain ⟨between, hbetween⟩ := hl a ha offset (b ++ rest)
  obtain ⟨after, hafter⟩ := hm b hb between rest
  exact ⟨after, by rw [List.append_assoc, hbetween, hafter]⟩

/-- Pieces that change nothing can be repeated. -/
theorem leads_kstar (h : Leads l s s) : Leads (KStar.kstar l) s s := by
  intro chunk hchunk
  obtain ⟨pieces, rfl, hpieces⟩ := Language.mem_kstar.1 hchunk
  clear hchunk
  induction pieces with
  | nil => exact leads_one s _ rfl
  | cons piece pieces ih =>
    obtain ⟨hpiece, hpieces⟩ := List.forall_mem_cons.1 hpieces
    intro offset rest
    obtain ⟨between, hbetween⟩ := h piece hpiece offset (pieces.flatten ++ rest)
    obtain ⟨after, hafter⟩ := ih hpieces between rest
    exact ⟨after, by rw [List.flatten_cons, List.append_assoc, hbetween, hafter]⟩

/-- Pieces without events change nothing. -/
theorem leads_of_silent (h : ∀ chunk ∈ l, ∀ offset rest, ∃ after,
    eventsFrom s.names offset (chunk ++ rest) = eventsFrom s.names after rest) : Leads l s s := by
  intro chunk hchunk offset rest
  obtain ⟨after, hafter⟩ := h chunk hchunk offset rest
  exact ⟨after, congrArg s.reader.finish hafter⟩

/-- Pieces with one event change what the event changes. -/
theorem leads_of_event {e : Event} (hstep : s.reader.step e = .ok s'.reader)
    (h : ∀ chunk ∈ l, ∀ offset rest, ∃ after, eventsFrom s.names offset (chunk ++ rest) =
      (eventsFrom s'.names after rest).cons e) : Leads l s s' := by
  intro chunk hchunk offset rest
  obtain ⟨after, hafter⟩ := h chunk hchunk offset rest
  exact ⟨after, by rw [Standing.readOn, hafter, finish_cons hstep, Standing.readOn]⟩

theorem leads_gap (s : Standing) : Leads gap s s :=
  leads_kstar <| .add
    (leads_of_silent fun _ h offset rest => ⟨_, eventsFrom_spaces h s.names offset rest⟩)
    (leads_of_silent fun _ h => eventsFrom_comment h s.names)

/-! ### Elements -/

theorem leads_opening (htag : IsName tag) (names : List (List Char)) (r : Reader) :
    Leads (opening tag) ⟨names, r⟩ ⟨tag.toList :: names, r.opened tag⟩ := by
  have hstep : r.step (.opened tag.toList) = .ok (r.opened tag) := by
    rw [Reader.step, String.ofList_toList]
  exact leads_of_event hstep fun _ hchunk => eventsFrom_opening htag hchunk names

theorem leads_closing (htag : IsName tag) (names : List (List Char)) (r : Reader) :
    Leads (closing tag) ⟨tag.toList :: names, r⟩ ⟨names, r.closed tag⟩ := by
  have hstep : r.step (.closed tag.toList) = .ok (r.closed tag) := by
    rw [Reader.step, String.ofList_toList]
  exact leads_of_event hstep fun _ hchunk => eventsFrom_closing htag hchunk names

/-- What is known after an element, from what its content changes. -/
theorem leads_element (htag : IsName tag)
    (h : Leads l ⟨tag.toList :: names, r.opened tag⟩ ⟨tag.toList :: names, r'⟩) :
    Leads (element tag l) ⟨names, r⟩ ⟨names, r'.closed tag⟩ :=
  (((leads_opening htag names r).mul (leads_gap _)).mul h).mul
    ((leads_gap _).mul (leads_closing htag names r'))

/-- Every text of the language begins with markup. -/
def BeginsMarkup (l : Language Char) : Prop :=
  ∀ w ∈ l, ∃ tail, w = '<' :: tail

theorem BeginsMarkup.mul (hl : BeginsMarkup l) (m : Language Char) : BeginsMarkup (l * m) := by
  intro w hw
  obtain ⟨a, ha, b, -, rfl⟩ := Language.mem_mul.1 hw
  obtain ⟨tail, rfl⟩ := hl a ha
  exact ⟨tail ++ b, rfl⟩

theorem beginsMarkup_closing (tag : String) : BeginsMarkup (closing tag) := by
  rintro _ ⟨space, -, rfl⟩
  exact ⟨_, rfl⟩

theorem beginsMarkup_element (tag : String) (l : Language Char) : BeginsMarkup (element tag l) := by
  have hopening : BeginsMarkup (opening tag) := by
    rintro _ ⟨space, -, rfl⟩
    exact ⟨_, rfl⟩
  exact ((hopening.mul _).mul _).mul _

/-- White space before markup can be told apart from the markup. -/
theorem exists_spaces_of_gap_mul (hl : BeginsMarkup l) {w : List Char}
    (hw : w ∈ gap * l) :
    ∃ space ∈ spaces, ∃ tail, w = space ++ '<' :: tail ∧ '<' :: tail ∈ gap * l := by
  obtain ⟨_, ⟨pieces, rfl, hpieces⟩, b, hb, rfl⟩ := Language.mem_mul.1 hw
  induction pieces with
  | nil =>
    obtain ⟨tail, rfl⟩ := hl b hb
    exact ⟨[], nil_mem_spaces, tail, rfl, hw⟩
  | cons piece pieces ih =>
    obtain ⟨hpiece, hrest⟩ := List.forall_mem_cons.1 hpieces
    rcases (Language.mem_add _ _ _).1 hpiece with hspace | ⟨body, -, rfl⟩
    · obtain ⟨space, hspaces, tail, heq, htail⟩ :=
        ih hrest (Language.append_mem_mul (Language.join_mem_kstar hrest) hb)
      exact ⟨piece ++ space, List.forall_mem_append.2 ⟨hspace, hspaces⟩, tail, by simp [← heq],
        htail⟩
    · exact ⟨[], nil_mem_spaces, _, rfl, hw⟩

/-- No white space of markup stands at the ends of a name that is written. -/
theorem trim_of_mem_spellings (hname : IsPlain name) (h : raw ∈ spellings name.toList) :
    raw ≠ [] ∧ Markup.trim raw = raw := by
  obtain ⟨hne, -, htrimmed⟩ := hname
  obtain ⟨hstart, hend⟩ := Text.strip_eq_self_iff.1 (Text.trim_toList htrimmed)
  obtain ⟨hhead, hlast, hraw⟩ := ends_of_mem_spellings h (mt String.toList_eq_nil_iff.1 hne)
  have hspace (c : Char) (hc : Text.isBlank c = false) : isSpace c = false :=
    Bool.eq_false_iff.2 fun h => by simp [isBlank_of_isSpace h] at hc
  refine ⟨hraw, Text.strip_eq_self_iff.2 ⟨fun c hc => ?_, fun c hc => ?_⟩⟩
  · rcases hhead c hc with hc | rfl
    · exact hspace c (hstart c hc)
    · rfl
  · rcases hlast c hc with hc | rfl
    · exact hspace c (hend c hc)
    · rfl

/-- A name is read as it is written, if markup follows it. -/
theorem leads_spellings_mul (hname : IsPlain name) (hl : BeginsMarkup l)
    (h : Leads (gap * l) ⟨names, r.text name.toList⟩ s) :
    Leads (spellings name.toList * (gap * l)) ⟨names, r⟩ s := by
  intro chunk hchunk offset rest
  obtain ⟨raw, hraw, w, hw, rfl⟩ := Language.mem_mul.1 hchunk
  obtain ⟨space, hspace, tail, rfl, htail⟩ := exists_spaces_of_gap_mul hl hw
  obtain ⟨hne, htrim⟩ := trim_of_mem_spellings hname hraw
  obtain ⟨between, hbetween⟩ := eventsFrom_text (less_notMem_of_mem_spellings hraw) hne htrim hspace
    names offset (tail ++ rest)
  have hstep : r.step (.text raw between) = .ok (r.text name.toList) := by
    simp only [Reader.step, unescape_of_mem_spellings hraw]
  obtain ⟨after, hafter⟩ := h _ htail between rest
  refine ⟨after, ?_⟩
  rw [← hafter, List.append_assoc, List.append_assoc, Standing.readOn, List.cons_append, hbetween,
    finish_cons hstep, Standing.readOn]

/-- What is known after an element with a name. -/
theorem leads_named (htag : IsName tag) (hname : IsPlain name) (names : List (List Char))
    (r : Reader) :
    Leads (named tag name) ⟨names, r⟩ ⟨names, ((r.opened tag).text name.toList).closed tag⟩ := by
  rw [named, element, mul_assoc]
  exact ((leads_opening htag names r).mul (leads_gap _)).mul
    (leads_spellings_mul hname (beginsMarkup_closing tag)
      ((leads_gap _).mul (leads_closing htag names _)))

/-! ### Entries -/

theorem text_toList (hname : IsPlain name) :
    Ascii.upper (String.ofList (Text.trim name.toList)) = name :=
  (congrArg Ascii.upper hname.2.2).trans hname.2.1

/-- A name of a library sets the library and nothing else. -/
theorem leads_library (hname : IsPlain name) (names : List (List Char)) (r : Reader) :
    Leads (named "Library" name) ⟨names, r⟩
      ⟨names, { r with element := none, library := some name }⟩ := by
  have h := leads_named (show IsName "Library" by decide) hname names r
  simpa [Reader.opened, Reader.text, Reader.closed, text_toList hname] using h

/-- A name of a steplib comes after the steplibs before it. -/
theorem leads_steplib (hname : IsPlain name) (names : List (List Char)) (r : Reader) :
    Leads (named "Steplib" name) ⟨names, r⟩
      ⟨names, { r with element := none, steplibs := r.steplibs ++ [name] }⟩ := by
  have h := leads_named (show IsName "Steplib" by decide) hname names r
  simpa [Reader.opened, Reader.text, Reader.closed, text_toList hname] using h

/-- The reader after one more steplib. -/
def Reader.addSteplib (r : Reader) (name : String) : Reader :=
  { r with element := none, steplibs := r.steplibs ++ [name] }

theorem closed_foldl_addSteplib (steplibs : List String) (r : Reader) :
    (steplibs.foldl Reader.addSteplib r).closed "Steplibs" =
      { r with element := none, steplibs := r.steplibs ++ steplibs } := by
  induction steplibs generalizing r with
  | nil => simp [Reader.closed]
  | cons name steplibs ih => simp [ih, Reader.addSteplib]

/-- Reading elements one after the other is reading each of them. -/
theorem leads_series {α : Type} {element : α → Language Char} {change : Reader → α → Reader}
    {items : List α}
    (h : ∀ r, ∀ a ∈ items, Leads (element a) ⟨names, r⟩ ⟨names, change r a⟩) (r : Reader) :
    Leads (series (items.map element)) ⟨names, r⟩ ⟨names, items.foldl change r⟩ := by
  induction items generalizing r with
  | nil => exact leads_one _
  | cons a items ih =>
    have hfirst := h r a List.mem_cons_self
    have hrest := ih (fun r b hb => h r b (List.mem_cons_of_mem _ hb)) (change r a)
    exact (hfirst.mul (leads_gap _)).mul hrest

/-- The element with the steplibs enters them in their order. -/
theorem leads_steplibs {steplibs : List String} (h : ∀ name ∈ steplibs, IsPlain name)
    (names : List (List Char)) (r : Reader) :
    Leads (element "Steplibs" (series (steplibs.map (named "Steplib")))) ⟨names, r⟩
      ⟨names, { r with element := none, steplibs := r.steplibs ++ steplibs }⟩ := by
  have hseries := @leads_series ("Steplibs".toList :: names) _ (named "Steplib") Reader.addSteplib
    steplibs (fun r name hname => leads_steplib (h name hname) _ r) (r.opened "Steplibs")
  have helement := leads_element (by decide) hseries
  rwa [closed_foldl_addSteplib] at helement

/-- One tag in place of no steplibs changes nothing. -/
theorem leads_noSteplibs {steplibs : List String} (h : steplibs = [] → s = s') :
    Leads (if steplibs = [] then selfClosing "Steplibs" else 0) s s' := by
  split
  · rename_i hnil
    rw [← h hnil]
    exact leads_of_silent fun _ hchunk => eventsFrom_selfClosing (by decide) hchunk s.names
  · exact fun _ hchunk => absurd hchunk (Language.notMem_zero _)

/-- An entry enters its library, whichever part comes first and however no steplibs are written. -/
theorem leads_entry (hname : IsPlain library.1) (hsteplibs : ∀ name ∈ library.2, IsPlain name)
    (names : List (List Char)) (r : Reader) :
    Leads (entry library) ⟨names, r⟩
      ⟨names, { manifest := r.manifest.insert library.1 library.2 }⟩ := by
  let inner := "LibrarySteplib".toList :: names
  let start : Reader := r.opened "LibrarySteplib"
  let stop : Reader :=
    { manifest := r.manifest, library := some library.1, steplibs := library.2 }
  have hlibraryFirst : Leads (named "Library" library.1 * gap * steplibsElement library.2)
      ⟨inner, start⟩ ⟨inner, stop⟩ := by
    refine ((leads_library hname inner start).mul (leads_gap _)).mul (.add ?_ ?_)
    · exact leads_steplibs hsteplibs inner _
    · exact leads_noSteplibs fun hnil => by simp [start, stop, Reader.opened, hnil]
  have hlibraryLast : Leads (steplibsElement library.2 * gap * named "Library" library.1)
      ⟨inner, start⟩ ⟨inner, stop⟩ := by
    -- the tag in place of no steplibs leaves the element open, which the library does not see
    rw [steplibsElement, add_mul, add_mul]
    refine .add ?_ ?_
    · exact ((leads_steplibs hsteplibs inner start).mul (leads_gap _)).mul
        (leads_library hname inner _)
    · have hnone : Leads (if library.2 = [] then selfClosing "Steplibs" else 0)
          ⟨inner, start⟩ ⟨inner, { start with steplibs := library.2 }⟩ :=
        leads_noSteplibs fun hnil => by simp [start, Reader.opened, hnil]
      exact (hnone.mul (leads_gap _)).mul (leads_library hname inner _)
  exact leads_element (by decide) (hlibraryFirst.add hlibraryLast)

/-! ### Manifests -/

/-- The reader after one more library. -/
def Reader.addLibrary (r : Reader) (library : String × List String) : Reader :=
  { manifest := r.manifest.insert library.1 library.2 }

theorem place_of_notMem {steplibs : List String} {libraries : List (String × List String)}
    (h : name ∉ libraries.map Prod.fst) :
    place name steplibs libraries = libraries ++ [(name, steplibs)] := by
  induction libraries with
  | nil => rfl
  | cons library libraries ih =>
    obtain ⟨hne, hrest⟩ := not_or.1 (mt List.mem_cons.2 h)
    rw [place, if_neg (Ne.symm hne), ih hrest, List.cons_append]

/-- Of libraries with names of their own, no earlier one has the name of a later one. -/
theorem notMem_of_nodup {before after : List (String × List String)}
    (h : ((before ++ library :: after).map Prod.fst).Nodup) :
    library.1 ∉ before.map Prod.fst := by
  rw [List.map_append, List.map_cons] at h
  exact fun hmem => (List.nodup_cons.1 (List.nodup_middle.1 h)).1 (List.mem_append_left _ hmem)

/-- Libraries with names of their own are entered in their order. -/
theorem manifest_foldl_addLibrary {libraries : List (String × List String)}
    (r : Reader) (h : ((r.manifest.libraries ++ libraries).map Prod.fst).Nodup) :
    (libraries.foldl Reader.addLibrary r).manifest = ⟨r.manifest.libraries ++ libraries⟩ := by
  induction libraries generalizing r with
  | nil => simp
  | cons library libraries ih =>
    have hinsert : (r.addLibrary library).manifest.libraries =
        r.manifest.libraries ++ [library] := place_of_notMem (notMem_of_nodup h)
    rw [List.foldl_cons, ih, hinsert, List.append_assoc, List.singleton_append]
    rwa [hinsert, List.append_assoc, List.singleton_append]

/-- A manifest is read up to its end, and its libraries have been entered in their order. -/
theorem leads_document {libraries : List (String × List String)}
    (hdistinct : (libraries.map Prod.fst).Nodup)
    (h : ∀ l ∈ libraries, IsPlain l.1 ∧ ∀ name ∈ l.2, IsPlain name) :
    ∃ r, r.manifest = ⟨libraries⟩ ∧ Leads (document libraries) ⟨[], {}⟩ ⟨[], r⟩ := by
  let start : Reader := (Reader.opened {} "BuildDescription").opened "LibrarySteplibs"
  have hentries := @leads_series ["LibrarySteplibs".toList, "BuildDescription".toList] _ entry
    Reader.addLibrary libraries (fun r l hl => leads_entry (h l hl).1 (h l hl).2 _ r) start
  have helements := leads_element (by decide) (leads_element (by decide) hentries)
  have hinstruction : Leads (1 + instruction) ⟨[], {}⟩ ⟨[], {}⟩ :=
    (leads_one _).add (leads_of_silent fun _ hchunk => eventsFrom_instruction hchunk [])
  have hmanifest : (libraries.foldl Reader.addLibrary start).manifest = ⟨libraries⟩ :=
    manifest_foldl_addLibrary start hdistinct
  refine ⟨((libraries.foldl Reader.addLibrary start).closed "LibrarySteplibs").closed
    "BuildDescription", ?_, hinstruction.mul ((leads_gap _).mul (helements.mul (leads_gap _)))⟩
  simpa [Reader.closed] using hmanifest

/-- A written manifest begins with white space or markup, not with a byte order mark. -/
theorem events_of_mem_document {libraries : List (String × List String)} {text : String}
    (h : text.toList ∈ document libraries) : events text = eventsFrom [] 0 text.toList := by
  have hhead : text.toList.head? ≠ some '\ufeff' := by
    obtain ⟨a, ha, w, hw, htext⟩ := Language.mem_mul.1 h
    rw [← htext]
    rcases (Language.mem_add _ _ _).1 ha with rfl | ⟨body, -, rfl⟩
    · obtain ⟨space, hspace, tail, rfl, -⟩ :=
        exists_spaces_of_gap_mul ((beginsMarkup_element _ _).mul _) hw
      cases space with
      | nil => simp
      | cons c space =>
        have hc := hspace c List.mem_cons_self
        rintro h
        cases h
        cases hc
    · simp
  rw [events]
  split
  · rename_i heq
    exact absurd (by rw [heq]; rfl) hhead
  · rfl

theorem lookup_of_mem {libraries : List (String × List String)}
    (hdistinct : (libraries.map Prod.fst).Nodup) (h : library ∈ libraries) :
    libraries.lookup library.1 = some library.2 := by
  obtain ⟨before, after, rfl⟩ := List.append_of_mem h
  refine List.lookup_eq_some_iff.2 ⟨before, after, rfl, fun other hother => bne_iff_ne.2 ?_⟩
  exact fun heq => notMem_of_nodup hdistinct (heq ▸ List.mem_map_of_mem hother)

/-! ### Every list of libraries can be written -/

theorem exists_mem_mul (hl : ∃ w, w ∈ l) (hm : ∃ w, w ∈ m) : ∃ w, w ∈ l * m := by
  obtain ⟨a, ha⟩ := hl
  obtain ⟨b, hb⟩ := hm
  exact ⟨a ++ b, Language.append_mem_mul ha hb⟩

theorem nil_mem_gap : [] ∈ gap :=
  Language.nil_mem_kstar _

theorem exists_mem_gap : ∃ w, w ∈ gap :=
  ⟨[], nil_mem_gap⟩

theorem mem_gap_of_mem_spaces (h : cs ∈ spaces) : cs ∈ gap :=
  ⟨[cs], by simp, List.forall_mem_singleton.2 (.inl h)⟩

theorem mem_series_cons {elements : List (Language Char)} {after : List Char} (hcs : cs ∈ l)
    (hafter : after ∈ gap) (hrest : rest ∈ series elements) :
    cs ++ after ++ rest ∈ series (l :: elements) :=
  Language.append_mem_mul (Language.append_mem_mul hcs hafter) hrest

theorem mem_element {before after : List Char} (hbefore : before ∈ gap) (hcs : cs ∈ l)
    (hafter : after ∈ gap) :
    '<' :: (tag.toList ++ ['>']) ++ before ++ cs ++ (after ++ '<' :: '/' :: (tag.toList ++ ['>'])) ∈
      element tag l := by
  have hopening : '<' :: (tag.toList ++ ['>']) ∈ opening tag := ⟨[], nil_mem_spaces, by simp⟩
  have hclosing : '<' :: '/' :: (tag.toList ++ ['>']) ∈ closing tag := ⟨[], nil_mem_spaces, by simp⟩
  exact Language.append_mem_mul (Language.append_mem_mul (Language.append_mem_mul hopening hbefore)
    hcs) (Language.append_mem_mul hafter hclosing)

theorem exists_mem_element (tag : String) (hl : ∃ w, w ∈ l) : ∃ w, w ∈ element tag l := by
  obtain ⟨w, hw⟩ := hl
  exact ⟨_, mem_element nil_mem_gap hw nil_mem_gap⟩

theorem exists_mem_series {elements : List (Language Char)} (h : ∀ l ∈ elements, ∃ w, w ∈ l) :
    ∃ w, w ∈ series elements := by
  induction elements with
  | nil => exact ⟨[], rfl⟩
  | cons l elements ih =>
    obtain ⟨hl, helements⟩ := List.forall_mem_cons.1 h
    exact exists_mem_mul (exists_mem_mul hl exists_mem_gap) (ih helements)

theorem exists_mem_named (tag name : String) : ∃ w, w ∈ named tag name :=
  exists_mem_element tag (exists_mem_spellings _)

theorem exists_mem_entry (library : String × List String) : ∃ w, w ∈ entry library := by
  have hseries : ∃ w, w ∈ series (library.2.map (named "Steplib")) :=
    exists_mem_series (List.forall_mem_map.2 fun name _ => exists_mem_named _ _)
  have hsteplibs : ∃ w, w ∈ steplibsElement library.2 :=
    (exists_mem_element "Steplibs" hseries).imp fun _ => .inl
  have hcontent := exists_mem_mul
    (exists_mem_mul (exists_mem_named "Library" library.1) exists_mem_gap) hsteplibs
  exact exists_mem_element _ (hcontent.imp fun _ => .inl)

/-- Every list of libraries can be written. -/
theorem exists_mem_document (libraries : List (String × List String)) :
    ∃ w, w ∈ document libraries := by
  have hentries : ∃ w, w ∈ series (libraries.map entry) :=
    exists_mem_series (List.forall_mem_map.2 fun library _ => exists_mem_entry library)
  exact exists_mem_mul ⟨[], .inl rfl⟩ (exists_mem_mul exists_mem_gap
    (exists_mem_mul (exists_mem_element _ (exists_mem_element _ hentries)) exists_mem_gap))

/-- Libraries with plain names of their own can be written as a manifest; and from every such
manifest, however it is spaced, commented and escaped and in whichever order its entries have their
parts, exactly these libraries are read, in order and with their steplibs in order, and the
steplibs of each are found by its name in any letter case. -/
theorem libraries_read_back (libraries : List (String × List String))
    (hdistinct : (libraries.map Prod.fst).Nodup)
    (hplain : ∀ l ∈ libraries, IsPlain l.1 ∧ ∀ name ∈ l.2, IsPlain name) :
    (∃ text : String, text.toList ∈ document libraries) ∧
      ∀ text : String, text.toList ∈ document libraries →
        parse text = .ok ⟨libraries⟩ ∧
          ∀ l ∈ libraries, ∀ name, Ascii.eqIgnoreCase name l.1 = true →
            steplibs ⟨libraries⟩ name = l.2 := by
  refine ⟨?_, fun text htext => ⟨?_, fun l hl name hname => ?_⟩⟩
  · obtain ⟨w, hw⟩ := exists_mem_document libraries
    exact ⟨String.ofList w, by rwa [String.toList_ofList]⟩
  · obtain ⟨r, hmanifest, hleads⟩ := leads_document hdistinct hplain
    obtain ⟨after, hafter⟩ := hleads _ htext 0 []
    rw [List.append_nil] at hafter
    have hend : Standing.readOn ⟨[], r⟩ after [] = .ok r.manifest := by
      rw [Standing.readOn, eventsFrom]
      rfl
    rw [parse_eq_finish, events_of_mem_document htext, ← hmanifest, ← hend, ← hafter,
      Standing.readOn]
  · rw [Ascii.eqIgnoreCase_iff, (hplain l hl).1.2.1] at hname
    rw [steplibs, hname, lookup_of_mem hdistinct hl, Option.getD_some]

/-- Names with marks of markup, a comment with the name of an element, either order of the parts of
an entry and either way of writing no steplibs are read back. -/
theorem libraries_read_back_sample :
    parse ("<?xml?>\n" ++ "<BuildDescription>" ++ "<!-- <Library> -->\n" ++ "<LibrarySteplibs>" ++
        "<LibrarySteplib>" ++ "<Steplibs><Steplib>&#60;</Steplib> " ++
        "<Steplib> C D\n</Steplib></Steplibs>" ++ "<Library>A&amp;B</Library>" ++
        "</LibrarySteplib>\n" ++
        "<LibrarySteplib>" ++ "<Library>E</Library>" ++ "<Steplibs />" ++ "</LibrarySteplib>" ++
        "</LibrarySteplibs>" ++ "</BuildDescription>") =
      .ok ⟨[("A&B", ["<", "C D"]), ("E", [])]⟩ ∧
    steplibs ⟨[("A&B", ["<", "C D"]), ("E", [])]⟩ "a&b" = ["<", "C D"] := by
  obtain ⟨-, hread⟩ := libraries_read_back [("A&B", ["<", "C D"]), ("E", [])] (by decide)
    (by decide +kernel)
  have hnil := nil_mem_gap
  have hline : ['\n'] ∈ gap := mem_gap_of_mem_spaces (by decide)
  have hspace : [' '] ∈ gap := mem_gap_of_mem_spaces (by decide)
  have hcomment : "<!-- <Library> -->\n".toList ∈ gap :=
    ⟨["<!-- <Library> -->".toList, ['\n']], by decide, List.forall_mem_cons.2
      ⟨.inr ⟨" <Library> ".toList, by decide, by decide⟩,
        List.forall_mem_singleton.2 (.inl (show ['\n'] ∈ spaces by decide))⟩⟩
  have hinstruction : "<?xml?>".toList ∈ instruction := ⟨"xml".toList, by decide, by decide⟩
  have hless : "&#60;".toList ∈ spellings "<".toList :=
    mem_spellings_cons.2 ⟨"&#60;".toList, [],
      @Escapes.decimal "60".toList '<' ⟨by decide, [6, 0], by decide,
        .cons (.inl rfl) (.cons (.inl rfl) .nil), by decide⟩ (by decide),
      mem_spellings_nil.2 rfl, rfl⟩
  have hampersand : "A&amp;B".toList ∈ spellings "A&B".toList :=
    mem_spellings_cons.2 ⟨"A".toList, "&amp;B".toList, .plain (by decide) (by decide),
      mem_spellings_cons.2 ⟨"&amp;".toList, "B".toList, @Escapes.named "amp" '&' (by decide),
        self_mem_spellings (by decide) (by decide), rfl⟩, rfl⟩
  have hplain (name : String) (h : '<' ∉ name.toList ∧ '&' ∉ name.toList) :
      name.toList ∈ spellings name.toList := self_mem_spellings h.1 h.2
  have hfirst := (mem_element hnil hless hnil : _ ∈ named "Steplib" "<")
  have hsecond := (mem_element hspace (hplain "C D" (by decide)) hline : _ ∈ named "Steplib" "C D")
  have hsteplibs : _ ∈ steplibsElement ["<", "C D"] :=
    .inl (mem_element hnil (mem_series_cons hfirst hspace (mem_series_cons hsecond hnil rfl)) hnil)
  have hlibrary := (mem_element hnil hampersand hnil : _ ∈ named "Library" "A&B")
  have hentry : _ ∈ entry ("A&B", ["<", "C D"]) :=
    mem_element hnil (Set.mem_union_right _ (Language.append_mem_mul
      (Language.append_mem_mul hsteplibs hnil) hlibrary)) hnil
  have hnone : _ ∈ steplibsElement [] := .inr ⟨[' '], by decide, rfl⟩
  have hlibrary' := (mem_element hnil (hplain "E" (by decide)) hnil : _ ∈ named "Library" "E")
  have hentry' : _ ∈ entry ("E", []) :=
    mem_element hnil (Set.mem_union_left _ (Language.append_mem_mul
      (Language.append_mem_mul hlibrary' hnil) hnone)) hnil
  have hlibraries := (mem_element hnil (mem_series_cons hentry hline
    (mem_series_cons hentry' hnil rfl)) hnil :
      _ ∈ element "LibrarySteplibs" (series ([("A&B", ["<", "C D"]), ("E", [])].map entry)))
  have hdocument : _ ∈ document [("A&B", ["<", "C D"]), ("E", [])] :=
    Language.append_mem_mul (Set.mem_union_right _ hinstruction) <|
      Language.append_mem_mul hline <|
        Language.append_mem_mul (mem_element hcomment hlibraries hnil) hnil
  refine (hread _ ?_).imp_right fun h => h _ List.mem_cons_self "a&b" (by decide +kernel)
  convert hdocument using 1
  -- the text is taken apart into its pieces, which are short enough to be compared
  simp only [String.toList_append]
  decide +kernel

end Steplib.Manifest
