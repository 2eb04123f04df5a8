import SchemaScript.Batch.Files

/-!
# Places in a tree of files

* `Path.IsName`, `Path.parts_of_baseName` — the names in a path.
* `Place.follow`, `FileTree.foldlM_step_cons` — where a path leads, and the directories on its way.
* `FileTree.place_of_baseName` — a place that a path leads to has the last name of the path.
* `FileTree.walk_join` — the place of a name in a directory.
* `FileTree.resolve_setFile`, `FileTree.file?_setFile_of_ne` — a file that is set changes no way and
  no other file.
* `FileTree.write_eq_ok` — what a write does.
-/

set_option autoImplicit false

namespace SchemaScript

/-! ## Parts of paths -/

namespace Path

variable {path base part : String}

theorem not_mem_of_mem_splitOn {c : Char} {cs l : List Char} (h : l ∈ cs.splitOn c) : c ∉ l := by
  induction cs generalizing l with
  | nil =>
    rw [List.splitOn_nil, List.mem_singleton] at h
    simp [h]
  | cons d cs ih =>
    rw [List.splitOn_cons_eq_if_modifyHead] at h
    split at h
    · rcases List.mem_cons.mp h with rfl | h
      · simp
      · exact ih h
    · rename_i hd
      cases hsplit : cs.splitOn c with
      | nil => exact absurd hsplit (List.splitOn_ne_nil c cs)
      | cons first others =>
        rw [hsplit] at h ih
        rw [List.modifyHead_cons] at h
        rcases List.mem_cons.mp h with rfl | h
        · rw [List.mem_cons, not_or]
          exact ⟨fun hc => hd (by simp [hc]), ih List.mem_cons_self⟩
        · exact ih (List.mem_cons_of_mem _ h)

/-- A part of a path that leads into a directory, and that no slash divides. -/
structure IsName (part : String) : Prop where
  ne_empty : part ≠ ""
  ne_here : part ≠ "."
  ne_up : part ≠ ".."
  slash : '/' ∉ part.toList

theorem slash_not_mem (h : part ∈ parts path) : '/' ∉ part.toList := by
  obtain ⟨cs, hcs, rfl⟩ := List.mem_map.mp h
  rw [String.toList_ofList]
  exact not_mem_of_mem_splitOn hcs

/-- The parts behind the last name of a path lead nowhere else. -/
theorem parts_of_baseName (h : baseName? path = some base) :
    IsName base ∧ ∃ front back, parts path = front ++ base :: back ∧
      ∀ part ∈ back, part = "" ∨ part = "." := by
  unfold baseName? at h
  split at h
  · cases h
  · rename_i hup
    obtain ⟨names, hnames⟩ := List.getLast?_eq_some_iff.mp h
    obtain ⟨front, rest, hparts, -, hrest⟩ := List.filter_eq_append_iff.mp hnames
    obtain ⟨middle, back, rfl, -, hbase, hback⟩ := List.filter_eq_cons_iff.mp hrest
    have hbase : base ≠ "" ∧ base ≠ "." := by simpa using hbase
    have hne_up : base ≠ ".." := by
      rintro rfl
      exact hup h
    have hslash : '/' ∉ base.toList := by
      have hmem : base ∈ parts path := by simp [hparts]
      exact slash_not_mem hmem
    refine ⟨⟨hbase.1, hbase.2, hne_up, hslash⟩,
      front ++ middle, back, by simp [hparts], fun part hpart => ?_⟩
    have hpart := List.filter_eq_nil_iff.mp hback part hpart
    exact Decidable.or_iff_not_imp_left.mpr (by simpa using hpart)

/-- A path inside a directory is the parts of the directory, but for a slash at its end, and the
name. -/
theorem toList_join (directory name : String) :
    ∃ way : List Char, (join directory name).toList = way ++ '/' :: name.toList ∧
      (directory.toList = way ∨ directory.toList = way ++ ['/']) := by
  unfold join
  split
  · rename_i hslash
    obtain ⟨way, hway⟩ := List.getLast?_eq_some_iff.mp hslash
    exact ⟨way, by simp [hway], .inr hway⟩
  · exact ⟨directory.toList, by simp, .inl rfl⟩

theorem parts_join (directory : String) {name : String} (hname : '/' ∉ name.toList) :
    ∃ way, parts (join directory name) = way ++ [name] ∧
      (parts directory = way ∨ parts directory = way ++ [""]) := by
  obtain ⟨way, hjoin, hway⟩ := toList_join directory name
  refine ⟨(way.splitOn '/').map String.ofList, ?_, ?_⟩
  · rw [parts, hjoin, List.splitOn_append_cons_self, List.map_append,
      List.splitOn_eq_singleton hname]
    simp
  · rcases hway with hway | hway
    · exact .inl (by rw [parts, hway])
    · refine .inr ?_
      rw [parts, hway, List.splitOn_append_cons_self, List.map_append]
      rfl

theorem baseName?_join (directory : String) {name : String} (hname : IsName name) :
    baseName? (join directory name) = some name := by
  obtain ⟨way, hjoin, -⟩ := parts_join directory hname.slash
  have hlast : ((parts (join directory name)).filter fun part => part ≠ "" ∧ part ≠ ".").getLast? =
      some name := by
    rw [hjoin, List.filter_append,
      List.filter_cons_of_pos (by simp [hname.ne_empty, hname.ne_here])]
    exact List.getLast?_concat
  unfold baseName?
  rw [hlast]
  split
  · rename_i hup
    exact absurd (Option.some.inj hup) hname.ne_up
  · rfl

theorem head?_join {directory : String} (hne : directory ≠ "") (name : String) :
    (join directory name).toList.head? = directory.toList.head? := by
  obtain ⟨c, cs, hcs⟩ : ∃ c cs, directory.toList = c :: cs := by
    cases h : directory.toList with
    | nil => exact absurd (String.toList_inj.mp h) hne
    | cons c cs => exact ⟨c, cs, rfl⟩
  unfold join
  split <;> simp [hcs]

theorem trimSlashes_eq {path : String} (hne : path ≠ "") (h : path.toList.getLast? ≠ some '/') :
    trimSlashes path = path := by
  unfold trimSlashes
  cases hchars : path.toList.reverse with
  | nil => exact absurd (String.toList_inj.mp (List.reverse_eq_nil_iff.mp hchars)) hne
  | cons c cs =>
    have hlast : path.toList = cs.reverse ++ [c] := by
      rw [← List.reverse_reverse path.toList, hchars, List.reverse_cons]
    have hc : c ≠ '/' := by
      rintro rfl
      exact h (by rw [hlast, List.getLast?_concat])
    rw [List.dropWhile_cons_of_neg (by simpa using hc)]
    change String.ofList (c :: cs).reverse = path
    rw [← hchars, List.reverse_reverse, String.ofList_toList]

end Path

/-! ## Walks -/

/-- One part of a path further on. -/
def Place.follow (place : Place) (part : String) : Place :=
  if part = "" ∨ part = "." then place
  else if part = ".." then place.dropLast
  else place ++ [part]

namespace Place

variable {place : Place} {part : String}

theorem follow_blank (h : part = "" ∨ part = ".") : place.follow part = place := if_pos h

theorem follow_name (h : Path.IsName part) : place.follow part = place ++ [part] := by
  rw [follow, if_neg (by simp [h.ne_empty, h.ne_here]), if_neg h.ne_up]

end Place

namespace FileTree

variable {t : FileTree} {place q : Place} {path part text : String} {parts : List String}

theorem step_eq_ok_iff :
    t.step place part = .ok q ↔ t.hasDirectory place ∧ q = place.follow part := by
  unfold step Place.follow
  split
  · rename_i hdirectory
    rw [and_iff_right hdirectory]
    split
    · simp [eq_comm]
    · split <;> simp [eq_comm]
  · rename_i hdirectory
    split <;> simp [hdirectory]

theorem foldlM_step_nil : ([] : List String).foldlM t.step place = .ok q ↔ q = place := by
  rw [List.foldlM_nil]
  simp [pure, Except.pure, eq_comm]

/-- A walk goes on from a place that has to be a directory, as long as there are parts. -/
theorem foldlM_step_cons : (part :: parts).foldlM t.step place = .ok q ↔
    t.hasDirectory place ∧ parts.foldlM t.step (place.follow part) = .ok q := by
  rw [List.foldlM_cons]
  cases hstep : t.step place part with
  | ok next =>
    obtain ⟨hdirectory, rfl⟩ := step_eq_ok_iff.mp hstep
    rw [and_iff_right hdirectory]
    rfl
  | error e =>
    have hdirectory : ¬ t.hasDirectory place := by
      intro hdirectory
      rw [step_eq_ok_iff.mpr ⟨hdirectory, rfl⟩] at hstep
      cases hstep
    simp [hdirectory, bind, Except.bind]

theorem foldlM_step_append {front : List String} :
    (front ++ parts).foldlM t.step place = .ok q ↔
      ∃ middle, front.foldlM t.step place = .ok middle ∧ parts.foldlM t.step middle = .ok q := by
  induction front generalizing place with
  | nil => simp only [List.nil_append, foldlM_step_nil, exists_eq_left]
  | cons part front ih =>
    simp only [List.cons_append, foldlM_step_cons, ih]
    constructor
    · rintro ⟨hdirectory, middle, hfront, hparts⟩
      exact ⟨middle, ⟨hdirectory, hfront⟩, hparts⟩
    · rintro ⟨middle, ⟨hdirectory, hfront⟩, hparts⟩
      exact ⟨hdirectory, middle, hfront, hparts⟩

theorem foldlM_step_blank (hparts : ∀ part ∈ parts, part = "" ∨ part = ".")
    (h : parts.foldlM t.step place = .ok q) : q = place := by
  induction parts with
  | nil => exact foldlM_step_nil.mp h
  | cons part parts ih =>
    obtain ⟨-, hrest⟩ := foldlM_step_cons.mp h
    rw [Place.follow_blank (hparts part List.mem_cons_self)] at hrest
    exact ih (fun part hpart => hparts part (List.mem_cons_of_mem _ hpart)) hrest

theorem resolve_eq_ok_iff :
    t.resolve path = .ok q ↔ Path.fault? path = none ∧ t.walk path = .ok q := by
  unfold resolve
  split <;> simp_all

/-- **A place that a path leads to has the last name of the path.** -/
theorem place_of_baseName {base : String} (hbase : Path.baseName? path = some base)
    (h : t.walk path = .ok q) : ∃ parent, q = parent ++ [base] := by
  obtain ⟨hname, front, back, hparts, hback⟩ := Path.parts_of_baseName hbase
  rw [walk, hparts, foldlM_step_append] at h
  obtain ⟨parent, -, hrest⟩ := h
  obtain ⟨-, hrest⟩ := foldlM_step_cons.mp hrest
  rw [Place.follow_name hname] at hrest
  exact ⟨parent, foldlM_step_blank hback hrest⟩

/-- **The place of a name in a directory.** -/
theorem walk_join {directory base : String} (h : t.resolve directory = .ok place)
    (hplace : t.hasDirectory place) (hname : Path.IsName base) :
    t.walk (Path.join directory base) = .ok (place ++ [base]) := by
  obtain ⟨hfault, hwalk⟩ := resolve_eq_ok_iff.mp h
  have hdirectory : directory ≠ "" := by
    rintro rfl
    cases hfault
  obtain ⟨way, hjoin, hway⟩ := Path.parts_join directory hname.slash
  rw [walk, Path.head?_join hdirectory, hjoin, foldlM_step_append]
  refine ⟨place, ?_, foldlM_step_cons.mpr ⟨hplace, ?_⟩⟩
  · rw [walk] at hwalk
    rcases hway with hway | hway
    · rwa [hway] at hwalk
    · -- a slash at the end of the directory adds an empty part, which leads nowhere else
      rw [hway, foldlM_step_append] at hwalk
      obtain ⟨middle, hfront, hlast⟩ := hwalk
      rwa [foldlM_step_blank (by simp) hlast]
  · rw [Place.follow_name hname, foldlM_step_nil]

/-! ## Files -/

theorem read_eq_ok_iff :
    t.read path = .ok text ↔ ∃ place, t.resolve path = .ok place ∧ t.file? place = some text := by
  unfold read
  cases t.resolve path with
  | error e => simp [bind, Except.bind]
  | ok place =>
    simp only [bind, Except.bind, Except.ok.injEq, exists_eq_left']
    cases t.file? place <;> simp [pure, Except.pure, throw, throwThe, MonadExceptOf.throw]

theorem hasDirectory_setFile : (t.setFile q text).hasDirectory place = t.hasDirectory place := rfl

theorem foldlM_step_setFile {q' : Place} : parts.foldlM (t.setFile q' text).step place = .ok q ↔
    parts.foldlM t.step place = .ok q := by
  induction parts generalizing place with
  | nil => simp only [foldlM_step_nil]
  | cons part parts ih => simp only [foldlM_step_cons, hasDirectory_setFile, ih]

/-- A file changes nothing about where paths lead. -/
theorem resolve_setFile {q' : Place} :
    (t.setFile q' text).resolve path = .ok q ↔ t.resolve path = .ok q := by
  simp only [resolve_eq_ok_iff, walk, foldlM_step_setFile]
  rfl

theorem lookup_filter_ne {files : List (Place × String)} (h : q ≠ place) :
    (files.filter fun entry => entry.1 ≠ place).lookup q = files.lookup q := by
  induction files with
  | nil => rfl
  | cons entry files ih =>
    obtain ⟨p, text⟩ := entry
    by_cases hp : p = place
    · rw [List.filter_cons_of_neg (by simpa using hp), ih, List.lookup_cons,
        beq_eq_false_iff_ne.mpr (hp ▸ h)]
    · rw [List.filter_cons_of_pos (by simpa using hp), List.lookup_cons, List.lookup_cons, ih]

/-- **A file is set at one place**, and no other changes. -/
theorem file?_setFile_of_ne (h : q ≠ place) : (t.setFile place text).file? q = t.file? q := by
  have hlast : List.lookup q [(place, text)] = none := by
    rw [List.lookup_cons, beq_eq_false_iff_ne.mpr h]
    rfl
  rw [file?, setFile, List.lookup_append, lookup_filter_ne h, hlast, Option.or_none, file?]

theorem file?_setFile_self : (t.setFile place text).file? place = some text := by
  have hnone : (t.files.filter fun entry => entry.1 ≠ place).lookup place = none := by
    rw [List.lookup_eq_none_iff]
    intro entry hentry
    have hne : entry.1 ≠ place := by simpa using (List.mem_filter.mp hentry).2
    exact bne_iff_ne.mpr (Ne.symm hne)
  rw [file?, setFile, List.lookup_append, hnone, Option.none_or]
  simp

/-- **What a write does**: a file is set at the place that the path leads to. -/
theorem write_eq_ok {t' : FileTree} (h : t.write path text = .ok t') :
    ∃ place, t.resolve path = .ok place ∧ t' = t.setFile place text := by
  unfold write at h
  split at h
  · cases h
  · rename_i hfault
    cases hwalk : t.walk (Path.trimSlashes path) with
    | error e =>
      rw [hwalk] at h
      cases h
    | ok place =>
      rw [hwalk] at h
      simp only [bind, Except.bind] at h
      split at h
      · cases h
      · rename_i hfile
        split at h
        · cases h
        · cases h
          have hpath : path ≠ "" := by
            rintro rfl
            cases hfault
          rw [Path.trimSlashes_eq hpath fun hlast => hfile (.inr hlast)] at hwalk
          exact ⟨place, resolve_eq_ok_iff.mpr ⟨hfault, hwalk⟩, rfl⟩

end FileTree

end SchemaScript
