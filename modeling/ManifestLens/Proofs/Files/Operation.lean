import ManifestLens.Files.Operation
import ManifestLens.Proofs.Error.Result
import ManifestLens.Proofs.Text.Utf8
import Mathlib.Data.List.Basic
import Mathlib.Data.List.Induction

/-!
# Reading and writing a file

In a proper tree every folder on the way to an entry is there. A path that leads to a file there names its
place: it comes to the same whether two dots are followed step by step or taken back before anything is
followed.

A file that can be read can be written. Afterwards it holds the new text, a copy of what it held before stands
beside it if that was wanted, and nothing else in the tree is different: the temporary file is gone.
-/

namespace ManifestLens

namespace FileTree

variable {tree : FileTree} {location other base : Location} {entry : FileEntry} {route : Route}
  {parts names : List String}

/-! ### What stands at a place -/

theorem isFolder_iff : tree.isFolder location = true ↔ tree.entry? location = some .folder := by
  rw [isFolder, beq_iff_eq]

theorem isFile_iff : tree.isFile location = true ↔ ∃ content, tree.entry? location = some (.file content) := by
  unfold isFile
  cases tree.entry? location with
  | none => simp
  | some entry => cases entry <;> simp

theorem isFolder_nil (tree : FileTree) : tree.isFolder [] = true := isFolder_iff.mpr (if_pos rfl)

theorem not_isFolder_of_isFile (h : tree.isFile location = true) : tree.isFolder location = false := by
  obtain ⟨content, hentry⟩ := isFile_iff.mp h
  rw [isFolder, hentry]
  rfl

theorem ne_nil_of_isFile (h : tree.isFile location = true) : location ≠ [] := by
  rintro rfl
  exact absurd tree.isFolder_nil (Bool.eq_false_iff.mp (not_isFolder_of_isFile h))

theorem find?_replaced (entries : List (Location × FileEntry)) (location other : Location) (entry : FileEntry)
    (hmem : entries.any (·.1 == location) = true) :
    ((entries.map fun old => if old.1 = location then (location, entry) else old).find?
      (·.1 == other)).map (·.2)
      = if other = location then some entry else (entries.find? (·.1 == other)).map (·.2) := by
  have hkey : ((fun x : Location × FileEntry => x.1 == other) ∘
      fun old => if old.1 = location then (location, entry) else old) = fun old => old.1 == other := by
    funext old
    simp only [Function.comp_apply]
    split
    · next heq => rw [heq]
    · rfl
  rw [List.find?_map, hkey, Option.map_map]
  cases hfind : entries.find? (·.1 == other) with
  | none =>
      have hne : other ≠ location := by
        rintro rfl
        obtain ⟨old, hold, heq⟩ := List.any_eq_true.mp hmem
        exact List.find?_eq_none.mp hfind old hold heq
      rw [if_neg hne]
      rfl
  | some old =>
      have heq : old.1 = other := by simpa using List.find?_some hfind
      simp only [Option.map_some, Function.comp_apply, heq]
      split <;> rfl

/-- **Putting an entry** somewhere changes nothing anywhere else. -/
theorem entry?_put (hne : location ≠ []) (other : Location) :
    FileTree.entry? (tree.put location entry) other
      = if other = location then some entry else tree.entry? other := by
  unfold put
  by_cases hroot : other = []
  · have hother : other ≠ location := hroot ▸ hne.symm
    rw [if_neg hother, entry?, entry?, if_pos hroot, if_pos hroot]
  · split
    · next hmem =>
        simp only [FileTree.entry?, if_neg hroot]
        exact find?_replaced tree.entries location other entry hmem
    · next hmem =>
        simp only [FileTree.entry?, if_neg hroot, List.find?_append]
        by_cases hother : other = location
        · have hnone : tree.entries.find? (·.1 == location) = none :=
            List.find?_eq_none.mpr fun old hold heq => hmem (List.any_eq_true.mpr ⟨old, hold, heq⟩)
          simp [hother, hnone]
        · have hneq : (location == other) = false := by simpa using Ne.symm hother
          simp [hother, hneq]

theorem workingFolder_put (tree : FileTree) (location : Location) (entry : FileEntry) :
    (tree.put location entry).workingFolder = tree.workingFolder := by
  unfold put
  split <;> rfl

theorem mem_of_isSome (h : (tree.entry? location).isSome = true) (hne : location ≠ []) :
    location ∈ tree.entries.map (·.1) := by
  rw [FileTree.entry?, if_neg hne, Option.isSome_map, List.find?_isSome] at h
  obtain ⟨entry, hentry, heq⟩ := h
  exact List.mem_map.mpr ⟨entry, hentry, beq_iff_eq.mp heq⟩

/-! ### Proper trees -/

/-- Every folder on the way to an entry is there, no entry is named by two dots, and paths start from a
folder. -/
structure IsProper (tree : FileTree) : Prop where
  folders : ∀ location name, (tree.entry? (location ++ [name])).isSome = true → tree.isFolder location = true
  names : ∀ location, (tree.entry? location).isSome = true → ".." ∉ location
  working : tree.isFolder tree.workingFolder = true

theorem isSome_of_isFolder (h : tree.isFolder location = true) : (tree.entry? location).isSome = true := by
  rw [isFolder_iff.mp h]
  rfl

theorem isSome_of_isFile (h : tree.isFile location = true) : (tree.entry? location).isSome = true := by
  obtain ⟨content, hentry⟩ := isFile_iff.mp h
  rw [hentry]
  rfl

theorem IsProper.isFolder_dropLast (h : tree.IsProper) (hentry : (tree.entry? location).isSome = true) :
    tree.isFolder location.dropLast = true := by
  rcases List.eq_nil_or_concat' location with rfl | ⟨folder, name, rfl⟩
  · exact tree.isFolder_nil
  · rw [List.dropLast_concat]
    exact h.folders folder name hentry

/-- A file beside another entry leaves the tree proper. -/
theorem IsProper.put (h : tree.IsProper) {folder : Location} {name : String} (content : List UInt8)
    (hfolder : tree.isFolder folder = true) (hname : name ≠ "..")
    (hplace : tree.isFolder (folder ++ [name]) = false) :
    (tree.put (folder ++ [name]) (.file content)).IsProper := by
  have hroot : folder ++ [name] ≠ [] := List.append_ne_nil_of_right_ne_nil folder (List.cons_ne_nil name [])
  have hentry := fun other => @entry?_put tree _ (.file content) hroot other
  have hkept : ∀ other, tree.isFolder other = true →
      (tree.put (folder ++ [name]) (.file content)).isFolder other = true := by
    intro other hother
    have hne : other ≠ folder ++ [name] := fun heq => by simp [heq, hplace] at hother
    rw [isFolder_iff, hentry, if_neg hne]
    exact isFolder_iff.mp hother
  refine ⟨fun location last hsome => ?_, fun location hsome => ?_, ?_⟩
  · rw [hentry] at hsome
    split at hsome
    · next heq =>
        obtain ⟨rfl, -⟩ := List.append_inj' heq rfl
        exact hkept _ hfolder
    · exact hkept _ (h.folders location last hsome)
  · rw [hentry] at hsome
    split at hsome
    · next heq =>
        rw [heq, List.mem_append, List.mem_singleton]
        exact not_or.mpr ⟨h.names folder (isSome_of_isFolder hfolder), hname.symm⟩
    · exact h.names location hsome
  · rw [workingFolder_put]
    exact hkept _ h.working

/-! ### Following names -/

/-- Where a name leads from a place. -/
def next (location : Location) (part : String) : Location :=
  if part = ".." then location.dropLast else location ++ [part]

theorem walk_cons_eq_ok_iff {part : String} : tree.walk base (part :: parts) = .ok location ↔
    tree.isFolder base = true ∧ (tree.entry? (next base part)).isSome = true ∧
      tree.walk (next base part) parts = .ok location := by
  rw [walk, isFolder, next]
  cases hbase : tree.entry? base with
  | none => simp
  | some entry =>
      cases entry with
      | file content => simp
      | folder =>
          cases hnext : (tree.entry? (if part = ".." then base.dropLast else base ++ [part])).isSome <;>
            simp [hnext]

theorem walk_append_eq_ok_iff : tree.walk base (parts ++ names) = .ok location ↔
    ∃ mid, tree.walk base parts = .ok mid ∧ tree.walk mid names = .ok location := by
  induction parts generalizing base with
  | nil => exact ⟨fun h => ⟨base, rfl, h⟩, fun ⟨_, hmid, h⟩ => Except.ok.inj hmid ▸ h⟩
  | cons part rest ih => simp only [List.cons_append, walk_cons_eq_ok_iff, ih, exists_and_left, and_assoc]

theorem eq_of_walk (h : tree.walk base parts = .ok location) : location = parts.foldl next base := by
  induction parts generalizing base with
  | nil => exact (Except.ok.inj h).symm
  | cons part rest ih => exact ih (walk_cons_eq_ok_iff.mp h).2.2

theorem eq_resolve_of_follow (h : tree.follow route = .ok location) : location = tree.resolve route :=
  eq_of_walk h

theorem IsProper.walk_names (h : tree.IsProper) (hentry : (tree.entry? (base ++ names)).isSome = true) :
    tree.walk base names = .ok (base ++ names) := by
  -- Every front of the names is a folder, so the walk is taken from its end.
  induction names using List.reverseRecOn with
  | nil => rw [List.append_nil, walk]
  | append_singleton names name ih =>
      rw [← List.append_assoc] at hentry ⊢
      have hfolder : tree.isFolder (base ++ names) = true := h.folders _ _ hentry
      have hname : name ≠ ".." := fun heq => h.names _ hentry (by simp [heq])
      refine walk_append_eq_ok_iff.mpr ⟨base ++ names, ih (isSome_of_isFolder hfolder), ?_⟩
      exact walk_cons_eq_ok_iff.mpr ⟨hfolder, by rwa [next, if_neg hname], by rw [next, if_neg hname, walk]⟩

/-- A path to a file ends with the name of the file, after a path to its folder. -/
theorem IsProper.exists_of_follow_file (h : tree.IsProper) (hfollow : tree.follow route = .ok location)
    (hfile : tree.isFile location = true) :
    ∃ folder, tree.follow route.parent = .ok folder ∧ tree.isFolder folder = true ∧ route.parts ≠ [] ∧
      route.name ≠ ".." ∧ location = folder ++ [route.name] := by
  obtain ⟨isAbsolute, parts⟩ := route
  have hnotFolder := not_isFolder_of_isFile hfile
  have hstart : tree.isFolder (if isAbsolute then [] else tree.workingFolder) = true := by
    split
    · exact tree.isFolder_nil
    · exact h.working
  rcases List.eq_nil_or_concat' parts with rfl | ⟨front, name, rfl⟩
  · rw [← Except.ok.inj hfollow] at hnotFolder
    exact absurd hstart (Bool.eq_false_iff.mp hnotFolder)
  · obtain ⟨folder, hfront, hlast⟩ := walk_append_eq_ok_iff.mp hfollow
    obtain ⟨hfolder, -, hplace⟩ := walk_cons_eq_ok_iff.mp hlast
    cases hplace
    have hname : name ≠ ".." := by
      rintro rfl
      exact absurd (h.isFolder_dropLast (isSome_of_isFolder hfolder)) (Bool.eq_false_iff.mp hnotFolder)
    refine ⟨folder, ?_, hfolder, by simp, ?_, ?_⟩
    · simpa [follow, Route.parent] using hfront
    · simpa [Route.name] using hname
    · simp [Route.name, next, hname]

end FileTree

end ManifestLens

/-! ## What reading and writing does -/

namespace ManifestLens

namespace FileTree

variable {tree after : FileTree} {location copy other base : Location} {route : Route} {naming : FileNaming}
  {parts : List String} {text : List Char} {keepsCopy : Bool} {limit : Option Int}

def copyLocation (naming : FileNaming) (location : Location) : Location :=
  location.dropLast ++ [Location.name location ++ "." ++ naming.stamp ++ ".backup"]

/-- Nothing has the name of a copy yet, in which the time stands to the microsecond. -/
def LacksCopies (tree : FileTree) (naming : FileNaming) : Prop :=
  ∀ location, tree.isFile location = true → tree.entry? (copyLocation naming location) = none

/-- A file has been given new content, a copy of it may have been made, and nothing else has changed. -/
structure Replaces (before after : FileTree) (location : Location) (copy : Option Location)
    (content : List UInt8) : Prop where
  file : after.entry? location = some (.file content)
  copied : ∀ place, copy = some place → place.dropLast = location.dropLast ∧ before.entry? place = none ∧
    after.entry? place = some (.file (before.contentAt location))
  others : ∀ place, place ≠ location → copy ≠ some place → after.entry? place = before.entry? place

/-! ### Reading -/

theorem existingFile_eq_ok (h : tree.existingFile route = .ok location) :
    tree.follow route = .ok location ∧ tree.isFile location = true := by
  unfold existingFile at h
  split at h
  · cases h
  · next found hlocate =>
      split at h
      · next hfile =>
          cases h
          unfold locate? at hlocate
          split at hlocate
          · next hfollow =>
              cases hlocate
              rw [← eq_resolve_of_follow hfollow]
              exact ⟨hfollow, hfile⟩
          · cases hlocate
      · cases h

/-- A text that is read stands in a file, byte by byte. -/
theorem exists_of_read (h : tree.read route limit = .ok text) :
    ∃ location, tree.existingFile route = .ok location ∧ tree.contentAt location = Text.Utf8.encode text := by
  obtain ⟨location, hexisting, h⟩ := bind_eq_ok_iff.mp h
  refine ⟨location, hexisting, ?_⟩
  dsimp only at h
  cases hdecode : Text.Utf8.decode (tree.contentAt location) with
  | ok found =>
      have htext : found = text := by
        rw [hdecode] at h
        split at h
        · split at h
          · cases h
          · exact Except.ok.inj h
        · exact Except.ok.inj h
      rw [← htext, Text.Utf8.encode_of_decode hdecode]
  | error fault =>
      rw [hdecode] at h
      split at h
      · split at h <;> cases h
      · cases h

/-! ### Writing -/

theorem walk_of_le (hle : ∀ other entry, tree.entry? other = some entry → after.entry? other = some entry)
    (h : tree.walk base parts = .ok location) : after.walk base parts = .ok location := by
  induction parts generalizing base with
  | nil => exact h
  | cons part rest ih =>
      obtain ⟨hfolder, hnext, hrest⟩ := walk_cons_eq_ok_iff.mp h
      obtain ⟨entry, hentry⟩ := Option.isSome_iff_exists.mp hnext
      exact walk_cons_eq_ok_iff.mpr ⟨isFolder_iff.mpr (hle _ _ (isFolder_iff.mp hfolder)),
        hle _ _ hentry ▸ rfl, ih hrest⟩

theorem IsProper.replace_eq (h : tree.IsProper) (hfollow : tree.follow route = .ok location)
    (hfile : tree.isFile location = true) (naming : FileNaming) (text : List Char) :
    tree.replace naming route text = .ok (tree.put location (.file (Text.Utf8.encode text))) := by
  obtain ⟨folder, hparent, hfolder, hparts, hname, rfl⟩ := h.exists_of_follow_file hfollow hfile
  have hscratch : (tree.scratchLocation naming route).dropLast = folder := by
    rw [scratchLocation, List.dropLast_concat, ← eq_resolve_of_follow hparent]
  have hwalk : tree.walk [] folder = .ok folder := @IsProper.walk_names tree [] folder h (isSome_of_isFolder hfolder)
  have htarget : tree.target route = .ok (folder ++ [route.name]) := by
    simp [target, hparent, hparts, hname, hfolder, not_isFolder_of_isFile hfile]
  simp [replace, hscratch, hwalk, hfolder, htarget]

theorem length_copyName (name stamp : String) :
    (name ++ "." ++ stamp ++ ".backup").toList.length = name.toList.length + stamp.toList.length + 8 := by
  simp
  omega

/-- **Making a copy** leaves a file where it was. -/
theorem IsProper.put_copy (h : tree.IsProper) (hfollow : tree.follow route = .ok location)
    (hfile : tree.isFile location = true) (hcopy : tree.entry? (copyLocation naming location) = none)
    (content : List UInt8) :
    let copied := tree.put (copyLocation naming location) (.file content)
    copyLocation naming location ≠ [] ∧ copyLocation naming location ≠ location ∧ copied.IsProper ∧
      copied.follow route = .ok location ∧ copied.isFile location = true := by
  intro copied
  obtain ⟨folder, -, hfolder, -, -, rfl⟩ := h.exists_of_follow_file hfollow hfile
  have hplace : copyLocation naming (folder ++ [route.name])
      = folder ++ [route.name ++ "." ++ naming.stamp ++ ".backup"] := by
    simp [copyLocation, Location.name]
  have hlength := length_copyName route.name naming.stamp
  have hnotSame : copyLocation naming (folder ++ [route.name]) ≠ folder ++ [route.name] := by
    rw [hplace]
    intro hsame
    rw [(List.cons.inj (List.append_cancel_left hsame)).1] at hlength
    omega
  have hnotDots : route.name ++ "." ++ naming.stamp ++ ".backup" ≠ ".." := by
    intro hdots
    rw [hdots] at hlength
    simp at hlength
  have hnotRoot : copyLocation naming (folder ++ [route.name]) ≠ [] := by simp [hplace]
  have hle : ∀ place entry, tree.entry? place = some entry → copied.entry? place = some entry := by
    intro place entry hentry
    have hnot : place ≠ copyLocation naming (folder ++ [route.name]) := by
      rintro rfl
      rw [hcopy] at hentry
      cases hentry
    rw [entry?_put hnotRoot, if_neg hnot, hentry]
  refine ⟨hnotRoot, hnotSame, ?_, ?_, ?_⟩
  · have hfree : tree.isFolder (copyLocation naming (folder ++ [route.name])) = false := by
      rw [isFolder, hcopy]
      rfl
    have hproper := h.put content hfolder hnotDots (hplace ▸ hfree)
    rwa [← hplace] at hproper
  · rw [follow, workingFolder_put]
    exact walk_of_le hle hfollow
  · obtain ⟨old, hold⟩ := isFile_iff.mp hfile
    exact isFile_iff.mpr ⟨old, hle _ _ hold⟩

/-- **Writing a file that is there.** It always succeeds, whether a copy is wanted or not. -/
theorem IsProper.exists_write (h : tree.IsProper) (hexisting : tree.existingFile route = .ok location)
    (hcopy : tree.entry? (copyLocation naming location) = none) (text : List Char) (keepsCopy : Bool) :
    ∃ after, tree.write naming route text keepsCopy
        = .ok (if keepsCopy then some (copyLocation naming location) else none, after) ∧
      tree.Replaces after location (if keepsCopy then some (copyLocation naming location) else none)
        (Text.Utf8.encode text) := by
  obtain ⟨hfollow, hfile⟩ := existingFile_eq_ok hexisting
  have hroot := ne_nil_of_isFile hfile
  cases keepsCopy with
  | false =>
      refine ⟨tree.put location (.file (Text.Utf8.encode text)), ?_, ?_, nofun, fun place hplace _ => ?_⟩
      · exact bind_eq_ok_iff.mpr ⟨_, h.replace_eq hfollow hfile naming text, rfl⟩
      · rw [entry?_put hroot, if_pos rfl]
      · rw [entry?_put hroot, if_neg hplace]
  | true =>
      obtain ⟨hcopyRoot, hdiffers, hproper, hleads, hstays⟩ :=
        h.put_copy hfollow hfile hcopy (tree.contentAt location)
      have hcopied : tree.backup naming route = .ok (copyLocation naming location,
          tree.put (copyLocation naming location) (.file (tree.contentAt location))) :=
        bind_eq_ok_iff.mpr ⟨location, hexisting, rfl⟩
      have hlocate : (true && (tree.locate? route).any tree.isFile) = true := by
        simp [locate?, hfollow, hfile]
      refine ⟨(tree.put (copyLocation naming location) (.file (tree.contentAt location))).put location
        (.file (Text.Utf8.encode text)), ?_, ?_, ?_, fun place hplace hcopyPlace => ?_⟩
      · rw [write, if_pos hlocate]
        refine bind_eq_ok_iff.mpr ⟨_, hcopied, bind_eq_ok_iff.mpr ⟨_, ?_, rfl⟩⟩
        exact hproper.replace_eq hleads hstays naming text
      · rw [entry?_put hroot, if_pos rfl]
      · rintro place ⟨⟩
        refine ⟨by simp [copyLocation], hcopy, ?_⟩
        rw [entry?_put hroot, if_neg hdiffers, entry?_put hcopyRoot, if_pos rfl]
      · have hnotCopy : place ≠ copyLocation naming location := fun heq => hcopyPlace (congrArg some heq.symm)
        rw [entry?_put hroot, if_neg hplace, entry?_put hcopyRoot, if_neg hnotCopy]

end FileTree

end ManifestLens
