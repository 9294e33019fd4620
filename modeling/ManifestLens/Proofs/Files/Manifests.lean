import ManifestLens.Files.Tree
import ManifestLens.Manifest.Kind
import ManifestLens.Proofs.Files.Operation
import ManifestLens.Proofs.Ordering.Stable
import ManifestLens.Proofs.Text.Lines
import ManifestLens.Proofs.Text.Trim

/-!
# Manifests found and manifests recognised

A scan of a folder finds manifests by patterns, in which case counts. A file that is named is recognised by its name in
lower case. Both say the same of a name that is in lower case; written otherwise, a manifest that is recognised is not
found. What is found is recognised: a text in lower case keeps the parts that are in lower case already, wherever they
stand.
-/

namespace ManifestLens

/-! ### Patterns -/

namespace FileTree

variable {pattern name word : List Char}

theorem matchesPattern_nil : matchesPattern [] name = true ↔ name = [] := List.isEmpty_iff

theorem matchesPattern_star : matchesPattern ('*' :: pattern) name = true ↔
    ∃ before after, name = before ++ after ∧ matchesPattern pattern after = true := by
  rw [matchesPattern, List.any_eq_true]
  constructor
  · rintro ⟨count, -, hafter⟩
    exact ⟨name.take count, name.drop count, (List.take_append_drop count name).symm, hafter⟩
  · rintro ⟨before, after, rfl, hafter⟩
    refine ⟨before.length, List.mem_range.mpr ?_, ?_⟩
    · rw [List.length_append]
      omega
    · rwa [List.drop_left]

theorem matchesPattern_cons {c : Char} (h : '*' ≠ c) : matchesPattern (c :: pattern) name = true ↔
    ∃ after, name = c :: after ∧ matchesPattern pattern after = true := by
  cases name with
  | nil =>
      rw [matchesPattern.eq_4 _ _ h.symm]
      simp
  | cons d name =>
      rw [matchesPattern.eq_3 _ _ _ _ h.symm, Bool.and_eq_true, beq_iff_eq]
      constructor
      · rintro ⟨rfl, hafter⟩
        exact ⟨name, rfl, hafter⟩
      · rintro ⟨_, heq, hafter⟩
        obtain ⟨rfl, rfl⟩ := List.cons.inj heq
        exact ⟨rfl, hafter⟩

theorem matchesPattern_append (h : '*' ∉ word) : matchesPattern (word ++ pattern) name = true ↔
    ∃ after, name = word ++ after ∧ matchesPattern pattern after = true := by
  induction word generalizing name with
  | nil => simp
  | cons c word ih =>
      obtain ⟨hc, hword⟩ := List.ne_and_not_mem_of_not_mem_cons h
      rw [List.cons_append, matchesPattern_cons hc]
      simp only [ih hword, List.cons_append]
      constructor
      · rintro ⟨_, rfl, after, rfl, hafter⟩
        exact ⟨after, rfl, hafter⟩
      · rintro ⟨after, rfl, hafter⟩
        exact ⟨word ++ after, rfl, after, rfl, hafter⟩

theorem matchesPattern_word (h : '*' ∉ word) : matchesPattern word name = true ↔ name = word := by
  rw [← List.append_nil word, matchesPattern_append h]
  simp only [matchesPattern_nil, exists_eq_right, List.append_nil]

end FileTree

/-! ### Lower case -/

namespace Text

/-- A letter that is in lower case already is the same in lower case, whatever stands around it. -/
theorem lowerAfter_cons {c : Char} (hlow : c.toNat < 0x80) (hc : asciiLowerChar c = c) (before rest : List Char) :
    lowerAfter before (c :: rest) = c :: lowerAfter (c :: before) rest := by
  rw [lowerAfter, if_neg (by omega), if_neg (by omega), lowerChar, if_pos hlow, hc]
  rfl

theorem lowerAfter_append {word : List Char} (h : ∀ c ∈ word, c.toNat < 0x80 ∧ asciiLowerChar c = c)
    (before rest : List Char) :
    lowerAfter before (word ++ rest) = word ++ lowerAfter (word.reverse ++ before) rest := by
  induction word generalizing before with
  | nil => rfl
  | cons c word ih =>
      obtain ⟨⟨hlow, hc⟩, hword⟩ := List.forall_mem_cons.mp h
      rw [List.cons_append, lowerAfter_cons hlow hc, ih hword]
      simp

/-- The end of a text in lower case comes from the end of the text. -/
theorem exists_lowerAfter_append (before first second : List Char) : ∃ front,
    lowerAfter before (first ++ second) = front ++ lowerAfter (first.reverse ++ before) second := by
  induction first generalizing before with
  | nil => exact ⟨[], rfl⟩
  | cons c first ih =>
      obtain ⟨front, hfront⟩ := ih (c :: before)
      rw [List.cons_append, lowerAfter, hfront, ← List.append_assoc, List.reverse_cons, List.append_assoc _ [c]]
      exact ⟨_, rfl⟩

end Text

/-! ### Names -/

namespace ManifestKind

/-- A name that is written as that of a manifest: "pyproject.toml", or any text that holds "requirements" and ends
in ".txt" behind it. -/
def IsSpelled (name : List Char) : Prop := name = "pyproject.toml".toList ∨
  ∃ before after, name = before ++ "requirements".toList ++ after ++ ".txt".toList

/-- A name that a file can have. -/
structure IsFileName (name : List Char) : Prop where
  slash : '/' ∉ name
  ne_nil : name ≠ []
  ne_dot : name ≠ ['.']

variable {name : List Char}

/-- A name that is spelled right in lower case is spelled right. -/
theorem IsSpelled.lower (h : IsSpelled name) : IsSpelled (Text.lower name) := by
  rcases h with rfl | ⟨before, after, rfl⟩
  · exact .inl (by decide)
  · have hword : ∀ c ∈ "requirements".toList, c.toNat < 0x80 ∧ Text.asciiLowerChar c = c := by decide
    have hending : ∀ c ∈ ".txt".toList, c.toNat < 0x80 ∧ Text.asciiLowerChar c = c := by decide
    simp only [Text.lower, List.append_assoc]
    obtain ⟨front, hfront⟩ := Text.exists_lowerAfter_append [] before
      ("requirements".toList ++ (after ++ ".txt".toList))
    rw [hfront, Text.lowerAfter_append hword]
    obtain ⟨middle, hmiddle⟩ := Text.exists_lowerAfter_append ("requirements".toList.reverse ++ (before.reverse ++ []))
      after ".txt".toList
    rw [hmiddle, ← List.append_nil ".txt".toList, Text.lowerAfter_append hending]
    exact .inr ⟨front, middle, by simp [Text.lowerAfter]⟩

theorem isSpelled_iff : IsSpelled name ↔ name = "pyproject.toml".toList ∨
    ".txt".toList <:+ name ∧ "requirements".toList <:+: name := by
  refine or_congr_right ⟨?_, ?_⟩
  · rintro ⟨before, after, rfl⟩
    exact ⟨List.suffix_append .., ⟨before, after ++ ".txt".toList, by simp⟩⟩
  · rintro ⟨⟨front, rfl⟩, hinfix⟩
    -- The word has no dot, so it stands before the ending or within it, for which it is too long.
    rcases Text.infix_of_append_cons (by decide) hinfix with ⟨before, after, rfl⟩ | hending
    · exact ⟨before, after, rfl⟩
    · exact absurd hending.length_le (by decide)

theorem fileName_of_isFileName (h : IsFileName name) : fileName name = name := by
  simp [fileName, Text.splitOn_of_notMem h.slash, h.ne_nil, h.ne_dot]

theorem isSome_ofFileName?_iff (h : IsFileName name) :
    (ofFileName? name).isSome = true ↔ IsSpelled (Text.lower name) := by
  rw [ofFileName?, fileName_of_isFileName h, isSpelled_iff]
  split
  · next heq => simp [heq]
  · next hne =>
    split
    · next hboth => 
      rw [Bool.and_eq_true, List.isSuffixOf_iff_suffix, Text.hasInfix_iff] at hboth
      exact iff_of_true rfl (.inr hboth)
    · next hnot =>
      rw [Bool.and_eq_true, List.isSuffixOf_iff_suffix, Text.hasInfix_iff] at hnot
      exact iff_of_false Bool.false_ne_true (not_or.mpr ⟨hne, hnot⟩)

end ManifestKind

namespace FileTree

theorem matchesPattern_requirements {name : List Char} : matchesPattern "*requirements*.txt".toList name = true ↔
    ∃ before after, name = before ++ "requirements".toList ++ after ++ ".txt".toList := by
  have hpattern : "*requirements*.txt".toList =
      '*' :: ("requirements".toList ++ '*' :: ".txt".toList) := by decide
  rw [hpattern, matchesPattern_star]
  simp only [matchesPattern_append (show '*' ∉ "requirements".toList by decide), matchesPattern_star,
    matchesPattern_word (show '*' ∉ ".txt".toList by decide)]
  constructor
  · rintro ⟨before, _, rfl, _, rfl, after, _, rfl, rfl⟩
    exact ⟨before, after, by simp only [List.append_assoc]⟩
  · rintro ⟨before, after, rfl⟩
    exact ⟨before, _, by simp only [List.append_assoc], _, rfl, after, _, rfl, rfl⟩

theorem isManifestName_iff {name : String} : isManifestName name = true ↔ ManifestKind.IsSpelled name.toList := by
  simp only [isManifestName, manifestPatterns, List.any_cons, List.any_nil, Bool.or_false, Bool.or_eq_true,
    matchesPattern_requirements, matchesPattern_word (show '*' ∉ "pyproject.toml".toList by decide)]
  rfl

/-! ### A scan -/

variable {tree : FileTree} {route : Route} {isDeep : Bool} {folder location below : Location} {name : String}

theorem name_concat (folder : Location) (name : String) : Location.name (folder ++ [name]) = name := by
  simp [Location.name]

theorem liesIn_iff : liesIn folder isDeep location = true ↔
    ∃ below name, location = folder ++ below ++ [name] ∧ (isDeep = true ∨ below = []) := by
  rw [liesIn, Bool.and_eq_true, List.isPrefixOf_iff_prefix]
  constructor
  · rintro ⟨⟨rest, rfl⟩, hlength⟩
    have hrest : rest ≠ [] := by
      rintro rfl
      cases isDeep <;> simp at hlength
    obtain ⟨below, name, rfl⟩ := (List.eq_nil_or_concat' rest).resolve_left hrest
    refine ⟨below, name, (List.append_assoc ..).symm, ?_⟩
    cases isDeep with
    | true => exact .inl rfl
    | false => exact .inr (by simpa using hlength)
  · rintro ⟨below, name, rfl, hbelow⟩
    refine ⟨⟨below ++ [name], (List.append_assoc ..).symm⟩, ?_⟩
    rcases hbelow with rfl | rfl
    · simp
    · cases isDeep <;> simp

theorem isFolder_of_mem_manifests (h : location ∈ tree.manifests route isDeep) :
    tree.isFolder (tree.resolve route) = true := by
  by_contra hfolder
  simp [manifests, hfolder] at h

/-- A file is found if it lies in the folder and its name is spelled as that of a manifest. -/
theorem mem_manifests_iff (hfolder : tree.isFolder (tree.resolve route) = true) :
    location ∈ tree.manifests route isDeep ↔ tree.isFile location = true ∧
      liesIn (tree.resolve route) isDeep location = true ∧ ManifestKind.IsSpelled (Location.name location).toList := by
  rw [← isManifestName_iff]
  simp only [manifests, hfolder, Bool.not_true, Bool.false_eq_true, if_false, List.mem_mergeSort, List.mem_eraseDups,
    List.mem_flatMap, filesLike, List.mem_filter, Bool.and_eq_true, isManifestName, List.any_eq_true]
  constructor
  · rintro ⟨pattern, hpattern, -, ⟨hfile, hlies⟩, hname⟩
    exact ⟨hfile, hlies, pattern, hpattern, hname⟩
  · rintro ⟨hfile, hlies, pattern, hpattern, hname⟩
    exact ⟨pattern, hpattern, mem_of_isSome (isSome_of_isFile hfile) (ne_nil_of_isFile hfile), ⟨hfile, hlies⟩, hname⟩

theorem precedes_trans {a b c : Location} (hab : precedes a b = true) (hbc : precedes b c = true) :
    precedes a c = true := Std.TransCmp.isLE_trans hab hbc

theorem precedes_total (a b : Location) : (precedes a b || precedes b a) = true := by
  let key (location : Location) : List (List Nat) := location.map fun part => part.toList.map Char.toNat
  have hswap : compare (key b) (key a) = (compare (key a) (key b)).swap := Std.OrientedOrd.eq_swap
  change ((compare (key a) (key b)).isLE || (compare (key b) (key a)).isLE) = true
  rw [hswap]
  cases compare (key a) (key b) <;> rfl

/-- What a scan of a folder finds, and what is recognised when it is named. -/
structure ScansManifests (tree : FileTree) (route : Route) (isDeep : Bool) : Prop where
  /-- A file in the folder is found if its name is spelled as that of a manifest. -/
  found : ∀ below name, tree.isFolder (tree.resolve route) = true → (isDeep = true ∨ below = []) →
    tree.isFile (tree.resolve route ++ below ++ [name]) = true →
    (tree.resolve route ++ below ++ [name] ∈ tree.manifests route isDeep ↔ ManifestKind.IsSpelled name.toList)
  /-- Nothing else is found, and nothing at all where there is no folder. -/
  inside : ∀ location ∈ tree.manifests route isDeep, tree.isFolder (tree.resolve route) = true ∧
    tree.isFile location = true ∧
    ∃ below name, location = tree.resolve route ++ below ++ [name] ∧ (isDeep = true ∨ below = [])
  /-- A file that is named is recognised if its name is spelled so in lower case. -/
  named : ∀ name, ManifestKind.IsFileName name →
    ((ManifestKind.ofFileName? name).isSome = true ↔ ManifestKind.IsSpelled (Text.lower name))
  /-- What is found is recognised. -/
  recognised : ∀ location ∈ tree.manifests route isDeep, ManifestKind.IsFileName (Location.name location).toList →
    (ManifestKind.ofFileName? (Location.name location).toList).isSome = true
  /-- Nothing is found twice. -/
  nodup : (tree.manifests route isDeep).Nodup
  sorted : (tree.manifests route isDeep).Pairwise fun a b => precedes a b = true

theorem nodup_manifests (tree : FileTree) (route : Route) (isDeep : Bool) : (tree.manifests route isDeep).Nodup := by
  simp only [manifests]
  split
  · exact List.nodup_nil
  · exact (List.mergeSort_perm _ _).nodup_iff.mpr (nodup_eraseDups _)

theorem sorted_manifests (tree : FileTree) (route : Route) (isDeep : Bool) :
    (tree.manifests route isDeep).Pairwise fun a b => precedes a b = true := by
  simp only [manifests]
  split
  · exact .nil
  · apply List.pairwise_mergeSort
    · exact fun _ _ _ => precedes_trans
    · exact precedes_total

/-- **Scanning a folder.** -/
theorem scansManifests (tree : FileTree) (route : Route) (isDeep : Bool) : tree.ScansManifests route isDeep where
  found below name hfolder hbelow hfile := by
    have hlies : liesIn (tree.resolve route) isDeep (tree.resolve route ++ below ++ [name]) = true :=
      liesIn_iff.mpr ⟨below, name, rfl, hbelow⟩
    rw [mem_manifests_iff hfolder, name_concat]
    exact ⟨fun h => h.2.2, fun h => ⟨hfile, hlies, h⟩⟩
  inside location hlocation := by
    have hfolder := isFolder_of_mem_manifests hlocation
    obtain ⟨hfile, hlies, -⟩ := (mem_manifests_iff hfolder).mp hlocation
    exact ⟨hfolder, hfile, liesIn_iff.mp hlies⟩
  named name hname := ManifestKind.isSome_ofFileName?_iff hname
  recognised location hlocation hname := by
    obtain ⟨-, -, hspelled⟩ := (mem_manifests_iff (isFolder_of_mem_manifests hlocation)).mp hlocation
    exact (ManifestKind.isSome_ofFileName?_iff hname).mpr hspelled.lower
  nodup := nodup_manifests tree route isDeep
  sorted := sorted_manifests tree route isDeep

/-- What is written with a capital letter is recognised and not found. -/
example :
    let tree : FileTree := ⟨[(["Requirements.txt"], .file []), (["requirements.txt"], .file [])], []⟩
    tree.manifests ⟨false, []⟩ false = [["requirements.txt"]] ∧
      ManifestKind.ofFileName? "Requirements.txt".toList = some .requirements := by decide +kernel

end FileTree

end ManifestLens
