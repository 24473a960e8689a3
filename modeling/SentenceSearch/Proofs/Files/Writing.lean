import Mathlib.Data.List.Basic
import SentenceSearch.Files.Task

/-!
# Files beside each other

Files that are written one after another into one directory all stay. Their paths lead to positions
below one and the same directory, so that each of them is put where none of the others is.

## Main definitions

* `Path.IsPlainName` — a name that is followed to an entry of its own
* `FileTree.CanWrite`, `FileTree.Holds` — a file may be written, and a file is there

## Main results

* `FileTree.exists_parent` — entries of a directory are at positions below one position
* `FileTree.exists_write` — a file is written, and other entries of the directory stay as they are
* `FileTree.holds_of_write` — a file that has been written is there beside the other ones
* `FileTask.runOn_bind`, `FileTask.exists_of_runOn_bind` — tasks one after the other
-/

namespace SentenceSearch

/-! ### Names -/

namespace Path

variable {directory name : String}

/-- A name that is followed to an entry of its own. -/
structure IsPlainName (name : String) : Prop where
  separator_not_mem : separator ∉ name.toList
  ne_empty : name ≠ ""
  ne_dot : name ≠ "."
  ne_dots : name ≠ ".."

theorem IsPlainName.follow (h : IsPlainName name) (position : List String) :
    Path.follow position name = position ++ [name] := by
  simp [Path.follow, isIdle, h.ne_empty, h.ne_dot, h.ne_dots]

theorem IsPlainName.head?_ne (h : IsPlainName name) : name.toList.head? ≠ some separator :=
  fun hhead => h.separator_not_mem (List.mem_of_head? hhead)

/-- The path of an entry is its name, after nothing or after a slash. -/
theorem exists_toList_join (directory : String) :
    ∃ front, (front = [] ∨ ∃ u, front = u ++ [separator]) ∧
      ∀ name, (join directory name).toList = front ++ name.toList := by
  unfold join
  split_ifs with h
  · rw [Bool.or_eq_true, beq_iff_eq, beq_iff_eq] at h
    refine ⟨directory.toList, ?_, fun name => String.toList_append⟩
    rcases h with rfl | hlast
    · exact .inl rfl
    · obtain ⟨u, hu⟩ := List.getLast?_eq_some_iff.mp hlast
      exact .inr ⟨u, hu⟩
  · refine ⟨directory.toList ++ [separator], .inr ⟨_, rfl⟩, fun name => ?_⟩
    rw [String.toList_append, String.toList_append]
    rfl

/-- The paths of the entries of a directory have the same names in front and start from the same
position. -/
theorem exists_names_join (directory : String) :
    ∃ front absolute, ∀ name, IsPlainName name →
      names (join directory name) = front ++ [name] ∧
        isAbsolute (join directory name) = absolute := by
  obtain ⟨front, hfront, hjoin⟩ := exists_toList_join directory
  have hname {name : String} (h : IsPlainName name) :
      name.toList.splitOn separator = [name.toList] :=
    List.splitOn_eq_singleton h.separator_not_mem
  rcases hfront with rfl | ⟨u, rfl⟩
  · refine ⟨[], false, fun name h => ?_⟩
    rw [names, isAbsolute, hjoin, List.nil_append, hname h]
    simp [h.head?_ne]
  · refine ⟨(u.splitOn separator).map String.ofList, (u ++ [separator]).head? == some separator,
      fun name h => ?_⟩
    rw [names, isAbsolute, hjoin, List.append_assoc, List.singleton_append,
      List.splitOn_append_cons_self, hname h]
    cases u <;> simp

end Path

/-! ### Nodes -/

/-- What is beside a place where a node was put stays as it is. -/
theorem FileNode.along?_put_beside (new node : FileNode) (parent : List String)
    {name other : String} (h : other ≠ name) :
    (new.put node (parent ++ [name])).along? (parent ++ [other]) =
      node.along? (parent ++ [other]) := by
  induction parent generalizing node with
  | nil => simp [put, along?, child?, lookup_insertEntry, h]
  | cons first parent ih =>
    simp only [List.cons_append, put, along?, child?, entries_directory, lookup_insertEntry,
      if_true, Option.bind_some, ih]
    cases node.entries.lookup first with
    | some below => rfl
    | none => cases parent <;> rfl

namespace FileTree

variable {tree : FileTree} {directory name other : String}

theorem entryAt?_insert_beside (tree : FileTree) (parent : List String) (node : FileNode)
    (h : other ≠ name) :
    (tree.insert (parent ++ [name]) node).entryAt? (parent ++ [other]) =
      tree.entryAt? (parent ++ [other]) := by
  have hroot : (tree.insert (parent ++ [name]) node).root =
      node.put tree.root (parent ++ [name]) := by
    cases parent <;> rfl
  rw [entryAt?, hroot, FileNode.along?_put_beside _ _ _ h, entryAt?]

/-- The last name of a way leads on from a position that does not depend on it. -/
theorem followAll_append_singleton (tree : FileTree) (start front : List String) (name : String) :
    tree.followAll start (front ++ [name]) = (tree.followAll start front).bind fun parent =>
      if tree.isDirectoryAt parent then some (Path.follow parent name) else none := by
  induction front generalizing start with
  | nil => rfl
  | cons first front ih =>
    simp only [List.cons_append, followAll]
    split
    · exact ih _
    · rfl

/-- The entries of a directory are at positions below one position. -/
theorem exists_parent (tree : FileTree) (directory : String) :
    ∃ parent, ∀ {name position}, Path.IsPlainName name →
      tree.locate (Path.join directory name) = some position → position = parent ++ [name] := by
  obtain ⟨front, absolute, hjoin⟩ := Path.exists_names_join directory
  refine ⟨(tree.followAll (if absolute then [] else tree.current) front).getD [], ?_⟩
  intro name position hname hlocate
  obtain ⟨hnames, habsolute⟩ := hjoin name hname
  rw [locate, start, hnames, habsolute] at hlocate
  split_ifs at hlocate
  all_goals
    rw [followAll_append_singleton, Option.bind_eq_some_iff] at hlocate
    obtain ⟨parent, hparent, hfollow⟩ := hlocate
    split_ifs at hfollow
    rw [hname.follow] at hfollow
    simp_all

/-- A file may be written at the path: the path leads to a place where no directory is. -/
def CanWrite (tree : FileTree) (path : String) : Prop :=
  ∃ position, tree.locate path = some position ∧ tree.isDirectoryAt position = false

/-- A file is at the path. -/
def Holds (tree : FileTree) (path : String) (content : ByteArray) : Prop :=
  tree.node? path = some (.file content)

/-- A file is written where that is possible, and the other entries of the directory stay. -/
theorem exists_write (hname : Path.IsPlainName name)
    (h : tree.CanWrite (Path.join directory name)) (content : ByteArray) :
    ∃ after, tree.write (Path.join directory name) content = some after ∧
      after.Holds (Path.join directory name) content ∧
      ∀ other, Path.IsPlainName other → other ≠ name →
        (tree.CanWrite (Path.join directory other) → after.CanWrite (Path.join directory other)) ∧
        ∀ held, tree.Holds (Path.join directory other) held →
          after.Holds (Path.join directory other) held := by
  -- Entries are told apart by their names, because they are all below the same position.
  obtain ⟨parent, hparent⟩ := tree.exists_parent directory
  obtain ⟨position, hlocate, hfree⟩ := h
  obtain rfl := hparent hname hlocate
  refine ⟨tree.insert (parent ++ [name]) (.file content), ?_, ?_, fun other hother hne => ⟨?_, ?_⟩⟩
  · simp [write, hlocate, hfree]
  · rw [Holds, node?, locate_insert tree _ hfree hlocate, Option.bind_some,
      entryAt?_insert tree _ (List.append_ne_nil_of_right_ne_nil _ (List.cons_ne_nil _ _))]
  · rintro ⟨target, htarget, hdirectory⟩
    obtain rfl := hparent hother htarget
    refine ⟨_, locate_insert tree _ hfree htarget, ?_⟩
    rwa [isDirectoryAt, entryAt?_insert_beside tree parent _ hne]
  · intro held hheld
    rw [Holds, node?, Option.bind_eq_some_iff] at hheld
    obtain ⟨target, htarget, hentry⟩ := hheld
    obtain rfl := hparent hother htarget
    rw [Holds, node?, locate_insert tree _ hfree htarget, Option.bind_some,
      entryAt?_insert_beside tree parent _ hne, hentry]

/-- Where a file has been written, one may be written. -/
theorem canWrite_of_write {after : FileTree} {path : String} {content : ByteArray}
    (h : tree.write path content = some after) : tree.CanWrite path := by
  simp only [write, Option.bind_eq_bind, Option.bind_eq_some_iff] at h
  obtain ⟨position, hlocate, h⟩ := h
  split at h
  · simp at h
  · rename_i hfree
    exact ⟨position, hlocate, Bool.eq_false_iff.mpr hfree⟩

/-- A file that has been written is there, and so are the other files of the directory. -/
theorem holds_of_write {after : FileTree} {content : ByteArray} (hname : Path.IsPlainName name)
    (h : tree.write (Path.join directory name) content = some after) :
    after.Holds (Path.join directory name) content ∧
      ∀ other, Path.IsPlainName other → other ≠ name → ∀ held,
        tree.Holds (Path.join directory other) held →
          after.Holds (Path.join directory other) held := by
  obtain ⟨written, hwrite, hheld, hbeside⟩ := exists_write hname (canWrite_of_write h) content
  obtain rfl : written = after := Option.some.inj (hwrite.symm.trans h)
  exact ⟨hheld, fun other hother hne => (hbeside other hother hne).2⟩

/-- A path with a file leads to a file. -/
theorem Holds.isFile {path : String} {content : ByteArray} (h : tree.Holds path content) :
    tree.isFile path = true := by
  rw [Holds] at h
  change ((tree.node? path).bind FileNode.content?).isSome = true
  rw [h]
  rfl

end FileTree

/-! ### Tasks -/

namespace FileTask

variable {α β : Type} {tree after : FileTree}

/-- A task goes on from where the one before it has left the files. -/
theorem runOn_bind {task : FileTask α} {a : α} (h : task.runOn tree = (.ok a, after))
    (next : α → FileTask β) : (task >>= next).runOn tree = (next a).runOn after := by
  rw [runOn] at h ⊢
  rw [ExceptT.run_bind, StateT.run_bind, h]
  rfl

/-- Tasks one after the other succeed when each of them does. -/
theorem exists_of_runOn_bind {task : FileTask α} {next : α → FileTask β} {b : β}
    (h : (task >>= next).runOn tree = (.ok b, after)) :
    ∃ a between, task.runOn tree = (.ok a, between) ∧ (next a).runOn between = (.ok b, after) := by
  cases htask : task.runOn tree with
  | mk result between =>
    cases result with
    | ok a => exact ⟨a, between, rfl, (runOn_bind htask next).symm.trans h⟩
    | error failure =>
      rw [runOn] at h htask
      rw [ExceptT.run_bind, StateT.run_bind, htask] at h
      cases h

/-- Looking at the files gives what is seen there and changes nothing. -/
theorem runOn_reading (f : FileTree → Except Failure α) (tree : FileTree) :
    (reading f).runOn tree = (f tree, tree) := by
  have hget : FileTask.runOn (get : FileTask FileTree) tree = (.ok tree, tree) := rfl
  rw [reading, runOn_bind hget]
  cases f tree with
  | ok a => rfl
  | error failure => rfl

theorem runOn_write {path : String} {content : ByteArray}
    (h : tree.write path content = some after) :
    (write path content).runOn tree = (.ok (), after) := by
  have hget : FileTask.runOn (get : FileTask FileTree) tree = (.ok tree, tree) := rfl
  rw [write, change, runOn_bind hget, h]
  rfl

/-- A file is written by a task that succeeds. -/
theorem write_of_runOn {path : String} {content : ByteArray}
    (h : (write path content).runOn tree = (.ok (), after)) :
    tree.write path content = some after := by
  cases hwrite : tree.write path content with
  | some written => exact congrArg some (Prod.mk.inj ((runOn_write hwrite).symm.trans h)).2
  | none =>
    have hget : FileTask.runOn (get : FileTask FileTree) tree = (.ok tree, tree) := rfl
    rw [write, change, runOn_bind hget, hwrite] at h
    cases h

theorem runOn_makeDirectories {path : String} (h : (tree.makeDirectories path).2 = true) :
    (makeDirectories path).runOn tree = (.ok (), (tree.makeDirectories path).1) := by
  have hget : FileTask.runOn (get : FileTask FileTree) tree = (.ok tree, tree) := rfl
  have hset (made : FileTree) : FileTask.runOn (set made : FileTask PUnit) tree = (.ok (), made) :=
    rfl
  rw [makeDirectories, runOn_bind hget]
  generalize tree.makeDirectories path = result at h ⊢
  obtain ⟨made, ok⟩ := result
  obtain rfl : ok = true := h
  rw [runOn_bind (hset made)]
  rfl

end FileTask

end SentenceSearch
