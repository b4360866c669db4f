import Mathlib.Data.List.Forall2
import RouteGuard.Proofs.Settings.References

/-! # Comments and references

A hash sign is to hide the rest of its line: references in front of it are
replaced, and all from it on stays as it is. A text is expanded by this rule
exactly if no reference is opened in front of the first hash sign of a line and
closed behind it. Such a reference is replaced like any other.
-/

namespace RouteGuard.Settings

/-! ### Lines in front of a hash sign and behind it -/

/-- What stands in front of the first hash sign, or the whole line. -/
def front (line : List Char) : List Char := line.takeWhile (· ≠ '#')

/-- The first hash sign with all that follows it, or nothing. -/
def behind (line : List Char) : List Char := line.dropWhile (· ≠ '#')

/-- A dollar sign with a brace that no closing brace follows. -/
def LeavesOpen (cs : List Char) : Prop :=
  ∃ before tail, cs = before ++ '$' :: '\x7b' :: tail ∧ '\x7d' ∉ tail

/-- A reference is opened in front of the first hash sign and closed behind it. -/
def Straddled (line : List Char) : Prop := LeavesOpen (front line) ∧ '\x7d' ∈ behind line

variable {env : Environment} {cs name rest more : List Char} {parts : List Part}

theorem front_append_behind (line : List Char) : front line ++ behind line = line :=
  List.takeWhile_append_dropWhile

theorem hash_notMem_front (line : List Char) : '#' ∉ front line := by
  intro hmem
  simpa using List.all_eq_true.mp List.all_takeWhile _ hmem

theorem behind_eq (line : List Char) :
    behind line = [] ∨ ∃ comment, behind line = '#' :: comment := by
  cases hbehind : behind line with
  | nil => exact Or.inl rfl
  | cons c comment =>
      have hhash := List.head?_dropWhile_not (· ≠ '#') line
      rw [← behind, hbehind] at hhash
      obtain rfl : c = '#' := by simpa using hhash
      exact Or.inr ⟨comment, rfl⟩

/-! ### Parts with values -/

theorem fill_plain (c : Char) (parts : List Part) :
    fill env (.plain c :: parts) = (fill env parts).map (c :: ·) := by
  have hreferences : references (.plain c :: parts) = references parts := rfl
  rw [fill, fill, hreferences]
  cases firstUnset? env (references parts) <;> rfl

theorem fill_reference (name : List Char) (parts : List Part) :
    fill env (.reference name :: parts) =
      match env.value? (String.ofList name) with
      | none => .error ⟨String.ofList name⟩
      | some value => (fill env parts).map (value.toList ++ ·) := by
  have hreferences : references (.reference name :: parts) =
    String.ofList name :: references parts := rfl
  rw [fill, fill, hreferences, firstUnset?, List.find?_cons]
  cases hvalue : env.value? (String.ofList name) with
  | none => rfl
  | some value =>
      rw [← firstUnset?]
      cases firstUnset? env (references parts) with
      | none => simp [Except.map, Part.filled, hvalue]
      | some _ => rfl

/-! ### References across a hash sign -/

theorem StartsReference.append (hstarts : StartsReference cs) (tail : List Char) :
    StartsReference (cs ++ tail) := by
  obtain ⟨name, rest, hnamed, hclosed, rfl⟩ := hstarts
  exact ⟨name, rest ++ tail, hnamed, hclosed, by simp⟩

/-- A reference that is started only by what a hash sign brings is open in front
of it. -/
theorem open_of_startsReference {c : Char} (hunstarted : ¬StartsReference (c :: rest))
    (hstarts : StartsReference (c :: rest ++ '#' :: more)) :
    ∃ tail, c :: rest = '$' :: '\x7b' :: tail ∧ '\x7d' ∉ tail ∧ '\x7d' ∈ more := by
  obtain ⟨name, after, hnamed, hclosed, htext⟩ := hstarts
  cases rest with
  | nil => simp at htext
  | cons d tail =>
      simp only [List.cons_append, List.cons.injEq] at htext
      obtain ⟨rfl, rfl, htext⟩ := htext
      refine ⟨tail, rfl, ?_⟩
      by_cases htail : '\x7d' ∈ tail
      · -- then the name ends in front of the hash sign
        obtain ⟨crossing, rfl, -⟩ | ⟨within, rfl, hwithin⟩ := List.append_eq_append_iff.mp htext
        · exact absurd (List.mem_append_left _ htail) hclosed
        · cases within with
          | nil => simp at hwithin
          | cons _ within =>
              obtain ⟨rfl, -⟩ := List.cons.inj hwithin
              exact absurd ⟨name, within, hnamed, hclosed, rfl⟩ hunstarted
      · have hmem : '\x7d' ∈ tail ++ '#' :: more := htext ▸ by simp
        exact ⟨htail, by simpa [htail] using hmem⟩

theorem LeavesOpen.cons (hopen : LeavesOpen rest) (c : Char) : LeavesOpen (c :: rest) := by
  obtain ⟨before, tail, rfl, htail⟩ := hopen
  exact ⟨c :: before, tail, rfl, htail⟩

theorem LeavesOpen.append (hopen : LeavesOpen rest) (cs : List Char) : LeavesOpen (cs ++ rest) := by
  obtain ⟨before, tail, rfl, htail⟩ := hopen
  exact ⟨cs ++ before, tail, (List.append_assoc ..).symm, htail⟩

/-- What is open behind a closing brace is opened behind it. -/
theorem leavesOpen_of_append_brace (cs : List Char) (hopen : LeavesOpen (cs ++ '\x7d' :: rest)) :
    LeavesOpen rest := by
  obtain ⟨before, tail, htext, htail⟩ := hopen
  obtain ⟨middle, -, hmiddle⟩ | ⟨middle, -, hmiddle⟩ := List.append_eq_append_iff.mp htext
  · cases middle with
    | nil => simp at hmiddle
    | cons _ middle => exact ⟨middle, tail, (List.cons.inj hmiddle).2, htail⟩
  · have hmem : '\x7d' ∈ '$' :: '\x7b' :: tail := hmiddle ▸ by simp
    simp [htail] at hmem

/-- A reference that is left open starts at the first character or behind it. -/
theorem LeavesOpen.of_cons {c : Char} (hopen : LeavesOpen (c :: rest)) :
    LeavesOpen rest ∨ ∃ tail, c :: rest = '$' :: '\x7b' :: tail ∧ '\x7d' ∉ tail := by
  obtain ⟨before, tail, htext, htail⟩ := hopen
  cases before with
  | nil => exact Or.inr ⟨tail, htext, htail⟩
  | cons _ before => exact Or.inl ⟨before, tail, (List.cons.inj htext).2, htail⟩

/-! ### Lines -/

/-- A part without a hash sign is replaced before the rest of a line. -/
theorem expandLine_reference_fill {tail : List Char} (hnamed : name ≠ []) (hclosed : '\x7d' ∉ name)
    (hhash : '#' ∉ name) (hrest : expandLine env rest = (fill env parts).map (· ++ tail)) :
    expandLine env ('$' :: '\x7b' :: (name ++ '\x7d' :: rest)) =
      (fill env (.reference name :: parts)).map (· ++ tail) := by
  rw [expandLine_reference hnamed hclosed, fill_reference]
  cases env.value? (String.ofList name) with
  | none => rfl
  | some value =>
      simp only [if_neg hhash, hrest]
      cases fill env parts <;> simp [Except.map]

theorem expandLine_plain_fill {c : Char} {tail : List Char}
    (hunstarted : ¬StartsReference (c :: rest)) (hhash : c ≠ '#')
    (hrest : expandLine env rest = (fill env parts).map (· ++ tail)) :
    expandLine env (c :: rest) = (fill env (.plain c :: parts)).map (· ++ tail) := by
  rw [expandLine_plain hunstarted hhash, fill_plain, hrest]
  cases fill env parts <;> rfl

/-- Nothing is read behind a hash sign that no reference crosses. -/
theorem Reads.expandLine_append (hreads : Reads cs parts) (hhash : '#' ∉ cs) {tail : List Char}
    (htail : tail = [] ∨ ∃ comment, tail = '#' :: comment)
    (hapart : ¬(LeavesOpen cs ∧ '\x7d' ∈ tail)) :
    expandLine env (cs ++ tail) = (fill env parts).map (· ++ tail) := by
  induction hreads with
  | nil =>
      obtain rfl | ⟨comment, rfl⟩ := htail
      · rw [List.append_nil, expandLine]
        rfl
      · exact expandLine_hash comment
  | @reference name rest parts hnamed hclosed _ ih =>
      have hname : '#' ∉ name := fun hmem => hhash (by simp [hmem])
      have hrest : '#' ∉ rest := fun hmem => hhash (by simp [hmem])
      have hlater := ih hrest fun hstraddled =>
        hapart ⟨(hstraddled.1.cons _).append ('$' :: '\x7b' :: name), hstraddled.2⟩
      simpa using expandLine_reference_fill hnamed hclosed hname hlater
  | @plain c rest parts hunstarted _ ih =>
      rw [List.mem_cons, not_or] at hhash
      have hlater := ih hhash.2 fun hstraddled => hapart ⟨hstraddled.1.cons c, hstraddled.2⟩
      refine expandLine_plain_fill (fun hstarts => ?_) (Ne.symm hhash.1) hlater
      obtain rfl | ⟨comment, rfl⟩ := htail
      · exact hunstarted (by simpa using hstarts)
      · obtain ⟨tail, hopened, htail, hmem⟩ := open_of_startsReference hunstarted hstarts
        exact hapart ⟨⟨[], tail, hopened, htail⟩, List.mem_cons_of_mem _ hmem⟩

/-- The first reference that is left open is closed behind the hash sign, and
what follows it is not read. -/
theorem Reads.expandLine_open (hreads : Reads cs parts) (hhash : '#' ∉ cs) (hopen : LeavesOpen cs)
    (hmore : '\x7d' ∉ more) (rest : List Char) :
    ∃ before tail read,
      cs = before ++ '$' :: '\x7b' :: tail ∧ '\x7d' ∉ tail ∧ Reads before read ∧
      ∀ env, expandLine env (cs ++ '#' :: (more ++ '\x7d' :: rest)) =
        (fill env (read ++ [.reference (tail ++ '#' :: more)])).map (· ++ rest) := by
  induction hreads with
  | nil =>
      obtain ⟨before, tail, htext, -⟩ := hopen
      simp at htext
  | @reference name later parts hnamed hclosed _ ih =>
      have hname : '#' ∉ name := fun hmem => hhash (by simp [hmem])
      have hlater : '#' ∉ later := fun hmem => hhash (by simp [hmem])
      obtain ⟨before, tail, read, rfl, htail, hread, hexpand⟩ :=
        ih hlater (leavesOpen_of_append_brace ('$' :: '\x7b' :: name) hopen)
      refine ⟨_, tail, _, ?_, htail, .reference hnamed hclosed hread, fun env => ?_⟩
      · simp
      · simpa using expandLine_reference_fill hnamed hclosed hname (hexpand env)
  | @plain c later parts hunstarted _ ih =>
      rw [List.mem_cons, not_or] at hhash
      by_cases hhere : ∃ tail, c :: later = '$' :: '\x7b' :: tail ∧ '\x7d' ∉ tail
      · -- it is the first one
        obtain ⟨tail, hopened, htail⟩ := hhere
        refine ⟨[], tail, [], hopened, htail, .nil, fun env => ?_⟩
        have hclosed : '\x7d' ∉ tail ++ '#' :: more := by simp [htail, hmore]
        have hline : c :: later ++ '#' :: (more ++ '\x7d' :: rest) =
            '$' :: '\x7b' :: ((tail ++ '#' :: more) ++ '\x7d' :: rest) := by
          rw [hopened]
          simp
        rw [hline, expandLine_reference (by simp) hclosed, List.nil_append, fill_reference]
        cases env.value? (String.ofList (tail ++ '#' :: more)) with
        | none => rfl
        | some value => simp [fill, references, firstUnset?, Except.map]
      · have hlater := hopen.of_cons.resolve_right hhere
        obtain ⟨before, tail, read, rfl, htail, hread, hexpand⟩ := ih hhash.2 hlater
        refine ⟨c :: before, tail, _, rfl, htail,
          .plain (fun hstarts => hunstarted (hstarts.append _)) hread, fun env => ?_⟩
        refine expandLine_plain_fill (fun hstarts => ?_) (Ne.symm hhash.1) (hexpand env)
        obtain ⟨_, hopened, hclosed, _⟩ := open_of_startsReference hunstarted hstarts
        exact hhere ⟨_, hopened, hclosed⟩

/-- Where no reference reaches across the `#`, the front is filled and the rest kept. -/
theorem expandLine_of_not_straddled {line : List Char} (hapart : ¬Straddled line)
    (hreads : Reads (front line) parts) (env : Environment) :
    expandLine env line = (fill env parts).map (· ++ behind line) := by
  have hexpand : expandLine env (front line ++ behind line) = _ :=
    hreads.expandLine_append (hash_notMem_front line) (behind_eq line) hapart
  rwa [front_append_behind] at hexpand

/-- The first reference that is open in front of the first hash sign has a name
that crosses the sign. It is replaced like any other, and nothing that follows it
is read. -/
def ReadAcross (line : List Char) : Prop :=
  ∃ before tail more rest read,
    line = before ++ '$' :: '\x7b' :: (tail ++ '#' :: (more ++ '\x7d' :: rest)) ∧
    '#' ∉ before ∧ '\x7d' ∉ tail ++ '#' :: more ∧ Reads before read ∧
    ∀ env, expandLine env line =
      (fill env (read ++ [.reference (tail ++ '#' :: more)])).map (· ++ rest)

/-- Where a reference is opened in front of the sign and closed behind it, one is read across
it. -/
theorem Straddled.readAcross {line : List Char} (hstraddled : Straddled line) :
    ReadAcross line := by
  obtain ⟨hopen, hbrace⟩ := hstraddled
  obtain hnone | ⟨comment, hcomment⟩ := behind_eq line
  · simp [hnone] at hbrace
  · have hmem : '\x7d' ∈ comment := by simpa [hcomment] using hbrace
    obtain ⟨more, rest, rfl, hmore⟩ := List.eq_append_cons_of_mem hmem
    obtain ⟨parts, hreads⟩ := exists_reads (front line)
    obtain ⟨before, tail, read, hfront, htail, hread, hexpand⟩ :=
      hreads.expandLine_open (hash_notMem_front line) hopen hmore rest
    have hline := front_append_behind line
    rw [hcomment] at hline
    refine ⟨before, tail, more, rest, read, ?_, ?_, by simp [htail, hmore], hread, ?_⟩
    · rw [← hline, hfront]
      simp
    · intro hhash
      exact hash_notMem_front line (hfront ▸ List.mem_append_left _ hhash)
    · rwa [hline] at hexpand

/-! ### Texts -/

/-- A line with values in place of the references among the given parts, and with
its comment. -/
def filledLine (env : Environment) (line : List Char) (parts : List Part) : List Char :=
  parts.flatMap (·.filled env) ++ behind line

/-- What a text is expanded to by the rule, with the parts of what stands in
front of the hash sign of each line: the first name without a value is reported,
and if there is none, each reference gives way to the value as it is. -/
def ruled (env : Environment) (ls : List (List Char)) (read : List (List Part)) :
    Except Unset String :=
  match firstUnset? env (read.flatMap references) with
  | some name => .error ⟨name⟩
  | none => .ok (String.ofList (Text.joined '\n' (List.zipWith (filledLine env) ls read)))

/-- A text is expanded by the rule that all from the first hash sign of a line on
is a comment. -/
def ExpandsByRule (env : Environment) (s : String) : Prop :=
  ∃ read, List.Forall₂ (fun line parts => Reads (front line) parts) (lines s.toList) read ∧
    expand env s = ruled env (lines s.toList) read

theorem firstUnset?_append (names others : List String) :
    firstUnset? env (names ++ others) = (firstUnset? env names).or (firstUnset? env others) :=
  List.find?_append

/-- The lines are filled one by one, or the first unset name is reported. -/
theorem mapM_expandLine {ls : List (List Char)} {read : List (List Part)}
    (hread : List.Forall₂
      (fun line parts => expandLine env line = (fill env parts).map (· ++ behind line)) ls read) :
    ls.mapM (expandLine env) =
      match firstUnset? env (read.flatMap references) with
      | some name => .error ⟨name⟩
      | none => .ok (List.zipWith (filledLine env) ls read) := by
  induction hread with
  | nil => rfl
  | @cons line parts ls read hline _ ih =>
      rw [List.mapM_cons, hline, ih, fill, List.flatMap_cons, firstUnset?_append]
      cases firstUnset? env (references parts) with
      | some name => rfl
      | none => cases firstUnset? env (read.flatMap references) <;> rfl

/-- Every line can be read. -/
theorem exists_reads_lines (ls : List (List Char)) :
    ∃ read, List.Forall₂ (fun line parts => Reads (front line) parts) ls read := by
  induction ls with
  | nil => exact ⟨[], .nil⟩
  | cons line ls ih =>
      obtain ⟨read, hread⟩ := ih
      obtain ⟨parts, hreads⟩ := exists_reads (front line)
      exact ⟨parts :: read, .cons hreads hread⟩

theorem reads_lines_unique {ls : List (List Char)} {read others : List (List Part)}
    (hread : List.Forall₂ (fun line parts => Reads (front line) parts) ls read)
    (hothers : List.Forall₂ (fun line parts => Reads (front line) parts) ls others) :
    others = read :=
  List.right_unique_forall₂' (fun _ _ _ hparts hother => hother.unique hparts) hothers hread

/-- Lines in which no reference crosses a hash sign are expanded by the rule. -/
theorem expandsByRule_of_not_straddled {s : String}
    (hapart : ∀ line ∈ lines s.toList, ¬Straddled line) (env : Environment) :
    ExpandsByRule env s := by
  obtain ⟨read, hread⟩ := exists_reads_lines (lines s.toList)
  refine ⟨read, hread, ?_⟩
  have hlines : List.Forall₂
      (fun line parts => expandLine env line = (fill env parts).map (· ++ behind line))
      (lines s.toList) read :=
    ((List.forall₂_and_left _ _).mpr ⟨hapart, hread⟩).imp fun _ _ hline =>
      expandLine_of_not_straddled hline.1 hline.2 env
  rw [expand, mapM_expandLine hlines, ruled]
  cases firstUnset? env (read.flatMap references) <;> rfl

/-! ### An environment that tells the two apart -/

theorem isSome_value?_of_mem {name value : String} (hmem : (name, value) ∈ env) :
    (env.value? name).isSome = true := by
  rw [Environment.value?, List.findSome?_isSome_iff]
  exact ⟨_, hmem, by simp [List.isPrefixOf_iff_prefix]⟩

theorem value?_eq_none {name : String} (henv : ∀ entry ∈ env, '#' ∉ entry.1.toList ∧ entry.2 = "")
    (hhash : '#' ∈ name.toList) : env.value? name = none := by
  rw [Environment.value?, List.findSome?_eq_none_iff]
  rintro ⟨k, v⟩ hmem
  obtain ⟨hk, rfl⟩ := henv _ hmem
  have hother : ¬name.toList ++ ['='] <+: k.toList ++ ['='] := by
    intro hprefix
    have hmem := hprefix.subset (List.mem_append_left _ hhash)
    simp [hk] at hmem
  simpa [List.isPrefixOf_iff_prefix] using hother

/-- A name in a text is made of characters of the text. -/
theorem Reads.mem_of_mem_references (hreads : Reads cs parts) {name : String}
    (hname : name ∈ references parts) {c : Char} (hc : c ∈ name.toList) : c ∈ cs := by
  induction hreads with
  | nil => cases hname
  | @reference other rest parts _ _ _ ih =>
      obtain rfl | hlater := List.mem_cons.mp (show name ∈ String.ofList other :: references parts
        from hname)
      · rw [String.toList_ofList] at hc
        simp [hc]
      · simp [ih hlater]
  | plain _ _ ih => exact List.mem_cons_of_mem _ (ih hname)

theorem hash_notMem_of_mem_references {ls : List (List Char)} {read : List (List Part)}
    (hread : List.Forall₂ (fun line parts => Reads (front line) parts) ls read) :
    ∀ name ∈ read.flatMap references, '#' ∉ name.toList := by
  induction hread with
  | nil => simp
  | @cons line parts ls read hreads _ ih =>
      intro name hname hhash
      rw [List.flatMap_cons, List.mem_append] at hname
      obtain hhere | hlater := hname
      · exact hash_notMem_front line (hreads.mem_of_mem_references hhere hhash)
      · exact ih name hlater hhash

theorem ok_of_mem_mapM {α β ε : Type} {f : α → Except ε β} {xs : List α} {ys : List β}
    (hok : xs.mapM f = .ok ys) {x : α} (hx : x ∈ xs) : ∃ y, f x = .ok y := by
  induction xs generalizing ys with
  | nil => cases hx
  | cons z xs ih =>
      rw [List.mapM_cons] at hok
      cases hz : f z with
      | error e =>
          rw [hz] at hok
          cases hok
      | ok y =>
          cases hrest : xs.mapM f with
          | error e =>
              rw [hz, hrest] at hok
              cases hok
          | ok _ =>
              obtain rfl | hlater := List.mem_cons.mp hx
              · exact ⟨y, hz⟩
              · exact ih hrest hlater

/-- Where no name with a hash sign is set, a reference across one is a fault. -/
theorem ReadAcross.expandLine_ne_ok {line : List Char} (hacross : ReadAcross line)
    (henv : ∀ entry ∈ env, '#' ∉ entry.1.toList ∧ entry.2 = "") (text : List Char) :
    expandLine env line ≠ .ok text := by
  obtain ⟨_, tail, more, rest, read, -, -, -, -, hexpand⟩ := hacross
  have hunset : env.value? (String.ofList (tail ++ '#' :: more)) = none :=
    value?_eq_none henv (by simp)
  rw [hexpand env, fill]
  cases hfirst : firstUnset? env (references (read ++ [.reference (tail ++ '#' :: more)])) with
  | some name => exact fun hok => nomatch hok
  | none =>
      have hset := List.find?_eq_none.mp hfirst (String.ofList (tail ++ '#' :: more))
        (by simp [references])
      rw [hunset] at hset
      exact absurd rfl hset

/-- A text is expanded by the rule in every environment exactly if in none of its
lines a reference is opened in front of the first hash sign and closed behind it.
Such a reference is read across the hash sign. -/
theorem expandsByRule_iff (s : String) :
    ((∀ env, ExpandsByRule env s) ↔ ∀ line ∈ lines s.toList, ¬Straddled line) ∧
      ∀ line ∈ lines s.toList, Straddled line → ReadAcross line := by
  refine ⟨⟨fun hruled line hline hstraddled => ?_, expandsByRule_of_not_straddled⟩,
    fun _ _ => Straddled.readAcross⟩
  -- every name is set that is to be read, and no name with a hash sign in it
  obtain ⟨read, hread⟩ := exists_reads_lines (lines s.toList)
  let names := read.flatMap references
  let env : Environment := names.map fun name => (name, "")
  have henv : ∀ entry ∈ env, '#' ∉ entry.1.toList ∧ entry.2 = "" := by
    intro entry hentry
    obtain ⟨name, hname, rfl⟩ := List.mem_map.mp hentry
    exact ⟨hash_notMem_of_mem_references hread name hname, rfl⟩
  have hset : firstUnset? env names = none := by
    refine List.find?_eq_none.mpr fun name hname => ?_
    have hsome : (env.value? name).isSome = true :=
      isSome_value?_of_mem (List.mem_map_of_mem hname)
    simp [Option.isNone_iff_eq_none, Option.isSome_iff_ne_none.mp hsome]
  obtain ⟨others, hothers, hexpand⟩ := hruled env
  obtain rfl := reads_lines_unique hread hothers
  rw [ruled, hset, expand] at hexpand
  cases hlines : (lines s.toList).mapM (expandLine env) with
  | error e =>
      rw [hlines] at hexpand
      cases hexpand
  | ok texts =>
      obtain ⟨text, htext⟩ := ok_of_mem_mapM hlines hline
      exact hstraddled.readAcross.expandLine_ne_ok henv text htext

/-- A path with a dollar sign and a brace in it, and a comment about a variable. -/
def openedPath : String := "seed_file = \"a$\x7bb\" # see $\x7bHOME\x7d"

/-- The path opens a reference, which the variable of the comment closes. -/
theorem not_expandsByRule_openedPath :
    (¬∀ env, ExpandsByRule env openedPath) ∧
      expand [] openedPath = .error ⟨"b\" # see $\x7bHOME"⟩ := by
  refine ⟨fun hruled => ?_, by decide +kernel⟩
  refine (expandsByRule_iff openedPath).1.mp hruled openedPath.toList (by decide +kernel) ?_
  exact ⟨⟨"seed_file = \"a".toList, "b\" ".toList, by decide +kernel, by decide +kernel⟩,
    by decide +kernel⟩

end RouteGuard.Settings
