import ElmScope.Disk
import ElmScope.Proofs.FileId.Identity
import ElmScope.Proofs.Path.Steps
import ElmScope.Proofs.Text.Octets
import Mathlib.Data.List.Nodup
/-!
# The files below a directory

What stands on a disk stands at different places, under names that are one step each. A directory is
read in whatever order the disk lists it: disks that differ in that order only answer every path
alike, and a visit comes across the same (`Reordered`).

The path of a file below a directory leads to that file, whatever path led to the directory, from
the root or from the working directory, and the identities of different files are different.

* `Reordered.read_eq`, `Reordered.perm_visit` — a disk listed in another order
* `file_mem_visit_iff` — which files a visit comes across
* `Visits.read_eq` — what a path below a directory leads to
* `readText_eq_ok_iff` — what reads as a text
* `pairwise_visit` — different files have different identities
-/
namespace ElmScope

namespace Path

variable {d n : Text} {ns : List Text}

theorem steps_join (h : IsStep n) (d : Text) : steps (join d n) = steps d ++ [n] := by
  rw [join]
  split
  · next hlast =>
    obtain ⟨d', rfl⟩ := List.getLast?_eq_some_iff.1 hlast
    rw [List.append_assoc, List.singleton_append, steps_append_slash, steps_append_slash, steps_nil,
      List.append_nil, steps_of_isStep h]
  · rw [steps_append_slash, steps_of_isStep h]

theorem steps_foldl_join (h : ∀ n ∈ ns, IsStep n) (d : Text) :
    steps (ns.foldl join d) = steps d ++ ns := by
  induction ns generalizing d with
  | nil => exact (List.append_nil _).symm
  | cons n ns ih =>
    obtain ⟨hn, hns⟩ := List.forall_mem_cons.1 h
    rw [List.foldl_cons, ih hns, steps_join hn, List.append_assoc, List.singleton_append]

theorem head?_join (h : d ≠ []) (n : Text) : (join d n).head? = d.head? := by
  cases d with
  | nil => exact absurd rfl h
  | cons c d =>
    rw [join]
    split <;> rfl

theorem join_ne_nil (h : d ≠ []) (n : Text) : join d n ≠ [] := by
  intro hnil
  have hhead := head?_join h n
  rw [hnil, List.head?_nil] at hhead
  exact h (List.head?_eq_none_iff.1 hhead.symm)

theorem not_mem_join {c : Char} (hd : c ∉ d) (hn : c ∉ n) (hc : c ≠ '/') : c ∉ join d n := by
  rw [join]
  split <;> simp [hd, hn, hc]

end Path

namespace Disk

/-- Whether a text may be the name of a file or a directory. -/
def IsName (n : Text) : Prop := Path.IsStep n ∧ n ≠ ['.', '.'] ∧ '\x00' ∉ n

instance (n : Text) : Decidable (IsName n) :=
  inferInstanceAs (Decidable ((_ ∧ _) ∧ _ ∧ _))

/-- A disk that can be: no two things stand at one place, places are made of names, and the working
directory is a directory. -/
structure WellFormed (disk : Disk) : Prop where
  nodup : (disk.nodes.map (·.1)).Nodup
  isName : ∀ entry ∈ disk.nodes, ∀ n ∈ entry.1, IsName n
  workingDirectory : ∀ place ∈ disk.workingDirectory, disk.isDirectory place = true

/-- One disk that lists what stands on it in two orders. -/
structure Reordered (disk disk' : Disk) : Prop where
  nodes : disk'.nodes.Perm disk.nodes
  workingDirectory : disk'.workingDirectory = disk.workingDirectory

variable {disk disk' : Disk} {place start : Place} {node : DiskNode}
  {content : Except String Octets} {path root n : Text} {ns : List Text}

theorem WellFormed.node?_eq_some_iff (h : disk.WellFormed) :
    disk.node? place = some node ↔ (place, node) ∈ disk.nodes := by
  rw [node?, Option.map_eq_some_iff]
  constructor
  · rintro ⟨⟨place', node'⟩, hfind, rfl⟩
    obtain rfl : place' = place := by simpa using List.find?_some hfind
    exact List.mem_of_find?_eq_some hfind
  · intro hmem
    have hsome : (disk.nodes.find? (·.1 = place)).isSome :=
      List.find?_isSome.2 ⟨_, hmem, decide_eq_true rfl⟩
    obtain ⟨entry, hentry⟩ := Option.isSome_iff_exists.1 hsome
    have hplace : entry.1 = place := by simpa using List.find?_some hentry
    have heq : entry = (place, node) :=
      List.inj_on_of_nodup_map h.nodup (List.mem_of_find?_eq_some hentry) hmem hplace
    exact ⟨entry, hentry, congrArg Prod.snd heq⟩

theorem WellFormed.file?_eq_some_iff (h : disk.WellFormed) :
    disk.file? place = some content ↔ (place, .file content) ∈ disk.nodes := by
  rw [file?, Option.bind_eq_some_iff]
  constructor
  · rintro ⟨node, hnode, hcontent⟩
    cases node with
    | file content' =>
      obtain rfl := Option.some.inj hcontent
      exact h.node?_eq_some_iff.1 hnode
    | directory failure? => cases hcontent
  · exact fun hmem => ⟨_, h.node?_eq_some_iff.2 hmem, rfl⟩

/-- A directory lies above something or has an entry itself, so its names are names. -/
theorem WellFormed.isName_of_isDirectory (h : disk.WellFormed)
    (hplace : disk.isDirectory place = true) : ∀ n ∈ place, IsName n := by
  rw [isDirectory, Bool.or_eq_true, List.any_eq_true] at hplace
  rcases hplace with hroot | ⟨entry, hmem, habove⟩
  · rw [of_decide_eq_true hroot]
    exact nofun
  · rw [Bool.and_eq_true, List.isPrefixOf_iff_prefix] at habove
    exact fun n hn => h.isName entry hmem n (habove.1.subset hn)

/-! ## Another order -/

theorem Reordered.isDirectory_eq (h : Reordered disk disk') :
    disk'.isDirectory = disk.isDirectory := by
  funext place
  rw [isDirectory, h.nodes.any_eq, isDirectory]

theorem Reordered.wellFormed (h : Reordered disk disk') (hd : disk.WellFormed) :
    disk'.WellFormed where
  nodup := (h.nodes.map _).nodup_iff.2 hd.nodup
  isName entry hentry := hd.isName entry (h.nodes.mem_iff.1 hentry)
  workingDirectory place hplace := by
    rw [h.isDirectory_eq]
    exact hd.workingDirectory place (h.workingDirectory ▸ hplace)

theorem Reordered.node?_eq (h : Reordered disk disk') (hd : disk.WellFormed) :
    disk'.node? = disk.node? := by
  funext place
  refine Option.ext fun node => ?_
  rw [(h.wellFormed hd).node?_eq_some_iff, hd.node?_eq_some_iff, h.nodes.mem_iff]

theorem Reordered.file?_eq (h : Reordered disk disk') (hd : disk.WellFormed) :
    disk'.file? = disk.file? := by
  funext place
  rw [file?, h.node?_eq hd, file?]

theorem Reordered.locate_eq (h : Reordered disk disk') (hd : disk.WellFormed) :
    disk'.locate = disk.locate := by
  have henter : disk'.enter = disk.enter := by
    funext place component
    rw [enter, h.isDirectory_eq, h.file?_eq hd, enter]
  funext path
  rw [locate, startOf?, henter, h.workingDirectory, locate, startOf?]

/-- Every path reads alike. -/
theorem Reordered.read_eq (h : Reordered disk disk') (hd : disk.WellFormed) :
    disk'.read = disk.read := by
  funext path
  rw [read, h.locate_eq hd, h.node?_eq hd, read]

theorem Reordered.readText_eq (h : Reordered disk disk') (hd : disk.WellFormed) :
    disk'.readText = disk.readText := by
  funext path
  rw [readText, h.read_eq hd, readText]

/-! ## What a visit comes across -/

/-- A visit of a path comes across a file, under a path that goes on from it: what stands on the way
are directories that can be listed. -/
inductive Visits (disk : Disk) (root : Text) : Text → Except String Octets → Prop
  | intro {place : Place} {ns : List Text} {content : Except String Octets}
    (locate : disk.locate root = .ok place) (mem : (place ++ ns, .file content) ∈ disk.nodes)
    (listed : ∀ k < ns.length, ∀ node, (place ++ ns.take k, node) ∈ disk.nodes →
      node = .directory none) : Visits disk root (ns.foldl Path.join root) content

theorem isSealed_eq_false_iff : node.isSealed = false ↔ node = .directory none := by
  cases node with
  | file content => simp [DiskNode.isSealed]
  | directory failure? => cases failure? <;> simp [DiskNode.isSealed]

/-- A visit gets as far as the directories on the way can be listed. -/
theorem reaches_append_iff : disk.reaches place (place ++ ns) = true ↔
    ∀ k < ns.length, ∀ node, (place ++ ns.take k, node) ∈ disk.nodes → node = .directory none := by
  simp only [reaches, Bool.and_eq_true, List.isPrefixOf_iff_prefix, List.prefix_append, true_and,
    Bool.not_eq_eq_eq_not, Bool.not_true, List.any_eq_false, decide_eq_true_eq, not_and]
  constructor
  · intro h k hk node hmem
    rw [← isSealed_eq_false_iff, ← Bool.not_eq_true]
    intro hsealed
    refine h _ hmem ⟨⟨hsealed, List.prefix_append _ _⟩, ?_⟩ fun heq => ?_
    · exact (List.prefix_append_right_inj place).2 (List.take_prefix k ns)
    · have hlength := congrArg List.length (List.append_cancel_left heq)
      rw [List.length_take_of_le (Nat.le_of_lt hk)] at hlength
      omega
  · rintro h ⟨p, node⟩ hmem ⟨⟨hsealed, ⟨x, rfl⟩⟩, hbelow⟩ hne
    obtain ⟨y, rfl⟩ := (List.prefix_append_right_inj place).1 hbelow
    have hy : y ≠ [] := by
      rintro rfl
      exact hne (by rw [List.append_nil])
    have hlength : x.length < (x ++ y).length := by
      have := List.length_pos_iff.2 hy
      rw [List.length_append]
      omega
    have hnode := h x.length hlength node (by rwa [List.take_left])
    rw [← isSealed_eq_false_iff, hsealed] at hnode
    exact nomatch hnode

theorem visit_of_locate (h : disk.locate root = .ok place) :
    disk.visit root = disk.nodes.filterMap fun (p, node) =>
      if disk.reaches place p then node.entry? ((p.drop place.length).foldl Path.join root)
      else none := by
  simp only [visit, h]

/-- A file that a visit comes across is a file. -/
theorem entry?_eq_file (h : node.entry? root = some (.file path)) :
    (∃ content, node = .file content) ∧ root = path := by
  cases node with
  | file content => exact ⟨⟨content, rfl⟩, DiskEntry.file.inj (Option.some.inj h)⟩
  | directory failure? => cases failure? <;> exact nomatch h

/-- A file that a visit comes across stands at the place of the visit or below it, and its path is
put together from the path of the visit and the rest of the place. -/
theorem exists_names_of_entry {p : Place} (h : (if disk.reaches place p then
      node.entry? ((p.drop place.length).foldl Path.join root) else none) = some (.file path)) :
    ∃ ns content, p = place ++ ns ∧ node = .file content ∧ path = ns.foldl Path.join root ∧
      disk.reaches place (place ++ ns) = true := by
  obtain ⟨hreaches, hentry⟩ := Option.ite_none_right_eq_some.1 h
  have hprefix := hreaches
  rw [reaches, Bool.and_eq_true, List.isPrefixOf_iff_prefix] at hprefix
  obtain ⟨⟨ns, rfl⟩, -⟩ := hprefix
  rw [List.drop_left] at hentry
  obtain ⟨⟨content, rfl⟩, rfl⟩ := entry?_eq_file hentry
  exact ⟨ns, content, rfl, rfl, rfl, hreaches⟩

/-- A visit comes across the files that stand behind directories that can be listed, and no
others. -/
theorem file_mem_visit_iff :
    DiskEntry.file path ∈ disk.visit root ↔ ∃ content, disk.Visits root path content := by
  constructor
  · intro hpath
    cases hplace : disk.locate root with
    | error fault =>
      rw [visit, hplace] at hpath
      exact nomatch List.mem_singleton.1 hpath
    | ok place =>
      rw [visit_of_locate hplace] at hpath
      obtain ⟨⟨p, node⟩, hmem, hentry⟩ := List.mem_filterMap.1 hpath
      obtain ⟨ns, content, rfl, rfl, rfl, hreaches⟩ := exists_names_of_entry hentry
      exact ⟨content, hplace, hmem, reaches_append_iff.1 hreaches⟩
  · rintro ⟨content, hplace, hmem, hlisted⟩
    rw [visit_of_locate hplace]
    refine List.mem_filterMap.2 ⟨_, hmem, ?_⟩
    simp only [reaches_append_iff.2 hlisted, if_true, List.drop_left]
    rfl

/-- A visit comes across the same, in the order of the disk. -/
theorem Reordered.perm_visit (h : Reordered disk disk') (hd : disk.WellFormed) (root : Text) :
    (disk'.visit root).Perm (disk.visit root) := by
  have hreaches : disk'.reaches = disk.reaches := by
    funext place target
    rw [reaches, h.nodes.any_eq, reaches]
  cases hlocate : disk.locate root with
  | error fault => rw [visit, visit, h.locate_eq hd, hlocate]
  | ok place =>
    have hlocate' : disk'.locate root = .ok place := by rw [h.locate_eq hd, hlocate]
    rw [visit_of_locate hlocate, visit_of_locate hlocate', hreaches]
    exact h.nodes.filterMap _

/-! ## Identities below a directory -/

theorem startOf?_join (h : disk.startOf? root = some start) (n : Text) :
    disk.startOf? (Path.join root n) = some start := by
  have hne : root ≠ [] := by
    rintro rfl
    exact nomatch h
  have habsolute : Path.isAbsolute (Path.join root n) = Path.isAbsolute root := by
    rw [Path.isAbsolute, Path.head?_join hne, Path.isAbsolute]
  rw [← h, startOf?, startOf?, habsolute, if_neg hne, if_neg (Path.join_ne_nil hne n)]

theorem startOf?_foldl_join (h : disk.startOf? root = some start) (ns : List Text) :
    disk.startOf? (ns.foldl Path.join root) = some start := by
  induction ns generalizing root with
  | nil => exact h
  | cons n ns ih => exact ih (startOf?_join h n)

theorem exists_startOf?_of_locate (h : disk.locate root = .ok place) :
    '\x00' ∉ root ∧ ∃ start, disk.startOf? root = some start ∧
      (Path.components root).foldlM disk.enter start = .ok place := by
  rw [locate] at h
  split at h
  · cases h
  · next hnul =>
    refine ⟨fun hmem => hnul (List.contains_iff_mem.2 hmem), ?_⟩
    split at h
    · next start hstart => exact ⟨start, hstart, h⟩
    · cases h

/-- A path made absolute has the steps to where it starts before its own. -/
theorem exists_absolute? (hd : disk.WellFormed) (h : disk.startOf? path = some start) :
    ∃ q, Path.absolute? disk.workingDirectory path = some q ∧
      Path.steps q = start ++ Path.steps path := by
  rw [startOf?] at h
  rw [Path.absolute?]
  split at h
  · next habsolute =>
    obtain rfl := Option.some.inj h
    exact ⟨_, if_pos habsolute, Path.steps_normalize path⟩
  · next habsolute =>
    split at h
    · cases h
    · next hne =>
      have hsteps : ∀ n ∈ start, Path.IsStep n := fun n hn =>
        (hd.isName_of_isDirectory (hd.workingDirectory start h) n hn).1
      rw [if_neg habsolute, if_neg hne, h, Option.map_some]
      refine ⟨_, rfl, ?_⟩
      rw [Path.steps_normalize, Path.steps_slash, Path.steps_intercalate_concat hsteps]

/-- The identities of paths from one path on tell the names that follow it. -/
theorem foldl_join_inj (hd : disk.WellFormed) (hstart : disk.startOf? root = some start)
    {ns ns' : List Text} (hns : ∀ n ∈ ns, Path.IsStep n) (hns' : ∀ n ∈ ns', Path.IsStep n)
    (heq : FileId.ofPath disk.workingDirectory (ns.foldl Path.join root) =
      FileId.ofPath disk.workingDirectory (ns'.foldl Path.join root)) : ns = ns' := by
  -- One identity is one absolute path, and that has the steps of the path.
  obtain ⟨a, ha, hsteps⟩ := exists_absolute? hd (startOf?_foldl_join hstart ns)
  obtain ⟨a', ha', hsteps'⟩ := exists_absolute? hd (startOf?_foldl_join hstart ns')
  obtain rfl := (FileId.ofPath_eq_iff ha ha').1 heq
  rw [hsteps, Path.steps_foldl_join hns, Path.steps_foldl_join hns', List.append_cancel_left_eq,
    List.append_cancel_left_eq] at hsteps'
  exact hsteps'

/-- Different files below a directory have different identities. -/
theorem pairwise_visit (hd : disk.WellFormed) (root : Text) :
    (disk.visit root).Pairwise fun x y => ∀ p q, x = .file p → y = .file q →
      FileId.ofPath disk.workingDirectory p ≠ FileId.ofPath disk.workingDirectory q := by
  cases hplace : disk.locate root with
  | error fault =>
    rw [visit, hplace]
    exact List.pairwise_singleton _ _
  | ok place =>
    obtain ⟨-, start, hstart, -⟩ := exists_startOf?_of_locate hplace
    rw [visit_of_locate hplace, List.pairwise_filterMap]
    have hnodup := hd.nodup
    rw [List.Nodup, List.pairwise_map] at hnodup
    refine hnodup.imp_of_mem ?_
    rintro ⟨p, node⟩ ⟨q, node'⟩ hp hq hne _ hentry _ hentry' path path' rfl rfl heq
    obtain ⟨ns, -, rfl, -, rfl, -⟩ := exists_names_of_entry hentry
    obtain ⟨ns', -, rfl, -, rfl, -⟩ := exists_names_of_entry hentry'
    have hns : ∀ n ∈ ns, Path.IsStep n := fun n hn => (hd.isName _ hp n (by simp [hn])).1
    have hns' : ∀ n ∈ ns', Path.IsStep n := fun n hn => (hd.isName _ hq n (by simp [hn])).1
    exact hne (by rw [foldl_join_inj hd hstart hns hns' heq])

/-! ## Reading a path below a directory -/

/-- Where the components of a path lead, from a place on. -/
def walk (disk : Disk) (place : Place) (path : Text) : Except DiskFault Place :=
  (Path.components path).foldlM disk.enter place

theorem walk_append_slash (place : Place) (s t : Text) :
    disk.walk place (s ++ '/' :: t) = (disk.walk place s).bind fun p => disk.walk p t := by
  rw [walk, Path.components, Text.pieces_append_cons, List.foldlM_append]
  rfl

theorem walk_of_isStep (h : '/' ∉ n) (place : Place) : disk.walk place n = disk.enter place n := by
  rw [walk, Path.components, Text.pieces_of_not_mem h, List.foldlM_cons]
  cases disk.enter place n <;> rfl

theorem enter_of_not_isDirectory (h : ¬disk.isDirectory place = true) (n : Text) :
    disk.enter place n = .error .notADirectory := by
  simp [enter, h]

/-- A path inside a directory leads where its name leads from the directory. -/
theorem walk_join (h : '/' ∉ n) (place : Place) (d : Text) :
    disk.walk place (Path.join d n) = (disk.walk place d).bind fun p => disk.enter p n := by
  have henter : ∀ p, disk.walk p n = disk.enter p n := walk_of_isStep h
  rw [Path.join]
  split
  · next hlast =>
    obtain ⟨d', rfl⟩ := List.getLast?_eq_some_iff.1 hlast
    rw [List.append_assoc, List.singleton_append, walk_append_slash, walk_append_slash]
    cases disk.walk place d' with
    | error fault => rfl
    | ok p =>
      simp only [Except.bind, henter]
      -- The slash at the end asks for a directory, and so does the name.
      rw [walk_of_isStep List.not_mem_nil]
      by_cases hp : disk.isDirectory p = true
      · have hidle : disk.enter p [] = .ok p := by simp [enter, hp, Path.isStep]
        rw [hidle]
      · rw [enter_of_not_isDirectory hp, enter_of_not_isDirectory hp]
  · rw [walk_append_slash]
    simp only [henter]

theorem locate_join (hn : IsName n) (h : disk.locate root = .ok place) :
    disk.locate (Path.join root n) = disk.enter place n := by
  obtain ⟨hnul, start, hstart, hwalk⟩ := exists_startOf?_of_locate h
  have hnul' : ¬(Path.join root n).contains '\x00' = true := by
    rw [List.contains_iff_mem]
    exact Path.not_mem_join hnul hn.2.2 (by decide)
  rw [locate, if_neg hnul', startOf?_join hstart]
  exact (walk_join hn.1.2 start root).trans (by rw [walk, hwalk]; rfl)

/-- The directories above a place are there. -/
theorem isDirectory_of_mem (hmem : (place ++ n :: ns, node) ∈ disk.nodes) :
    disk.isDirectory place = true := by
  rw [isDirectory, Bool.or_eq_true, List.any_eq_true]
  exact .inr ⟨_, hmem, by simp [List.isPrefixOf_iff_prefix]⟩

theorem enter_of_mem (hd : disk.WellFormed)
    (hmem : (place ++ n :: ns, .file content) ∈ disk.nodes) :
    disk.enter place n = .ok (place ++ [n]) := by
  obtain ⟨⟨hstep, -⟩, hup, -⟩ := hd.isName _ hmem n (by simp)
  have hdirectory := isDirectory_of_mem hmem
  have hnext : (disk.isDirectory (place ++ [n]) || (disk.file? (place ++ [n])).isSome) = true := by
    rw [Bool.or_eq_true]
    cases ns with
    | nil => exact .inr (Option.isSome_iff_exists.2 ⟨content, hd.file?_eq_some_iff.2 hmem⟩)
    | cons m ns =>
      rw [List.append_cons] at hmem
      exact .inl (isDirectory_of_mem hmem)
  simp [enter, hdirectory, hstep, hup, hnext]

theorem locate_foldl_join (hd : disk.WellFormed) (h : disk.locate root = .ok place)
    (hmem : (place ++ ns, .file content) ∈ disk.nodes) :
    disk.locate (ns.foldl Path.join root) = .ok (place ++ ns) := by
  induction ns generalizing root place with
  | nil => rw [List.foldl_nil, h, List.append_nil]
  | cons n ns ih =>
    have hn : IsName n := hd.isName _ hmem n (by simp)
    have hnext : disk.locate (Path.join root n) = .ok (place ++ [n]) :=
      (locate_join hn h).trans (enter_of_mem hd hmem)
    rw [List.append_cons] at hmem ⊢
    exact ih hnext hmem

/-- A path that a visit comes across leads to its file. -/
theorem Visits.read_eq (hd : disk.WellFormed) (h : disk.Visits root path content) :
    disk.read path = content.mapError .refused := by
  obtain ⟨hplace, hmem, -⟩ := h
  rw [read, locate_foldl_join hd hplace hmem]
  simp only [bind, Except.bind, hd.node?_eq_some_iff.2 hmem]

/-! ## Texts on a disk -/

/-- A path reads as a text: nothing fails, and what is read are the octets of a text. -/
def IsText (disk : Disk) (path : Text) : Prop := ∃ t, disk.read path = .ok (Text.encode t)

theorem readText_eq_ok_iff {t : Text} :
    disk.readText path = .ok t ↔ disk.read path = .ok (Text.encode t) := by
  rw [readText]
  cases disk.read path with
  | error fault => exact ⟨nofun, nofun⟩
  | ok octets =>
    simp only [bind, Except.bind, Except.ok.injEq, ← Text.decode?_eq_some_iff]
    cases Text.decode? octets <;> simp

theorem isText_iff_isOk : disk.IsText path ↔ (disk.readText path).isOk = true := by
  simp only [IsText, ← readText_eq_ok_iff]
  cases disk.readText path <;> simp [Except.isOk, Except.toBool]

instance (disk : Disk) (path : Text) : Decidable (disk.IsText path) :=
  decidable_of_iff _ isText_iff_isOk.symm

theorem Reordered.isText_iff (h : Reordered disk disk') (hd : disk.WellFormed) :
    disk'.IsText path ↔ disk.IsText path := by
  rw [IsText, h.read_eq hd, IsText]

end Disk
end ElmScope
