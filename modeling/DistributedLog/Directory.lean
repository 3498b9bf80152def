import Mathlib.Data.List.AList
import DistributedLog.BigEndian

/-!
# One directory of a file system

A directory is either absent or present, and maps distinct names to byte
contents (`AList` carries the distinctness). The operations are those that
programs use on a flat directory: create a file if it is missing, change
the bytes of an existing file, unlink it, list the names, remove the whole
directory.

`Touches ns d d'` is the frame condition every write satisfies: only the
files `ns` may have changed, and the listing is the same up to order.
-/

namespace DistributedLog

structure Directory (ν : Type) where
  present : Bool
  files : AList fun _ : ν => Bytes

namespace Directory

variable {ν : Type} [DecidableEq ν]

/-- An existing directory without files. -/
def empty : Directory ν := ⟨true, ∅⟩

/-- No such directory: what `RemoveAll` leaves behind. -/
def absent : Directory ν := ⟨false, ∅⟩

/-- `os.MkdirAll`. -/
def mkdirAll (d : Directory ν) : Directory ν := if d.present then d else empty

def content? (d : Directory ν) (n : ν) : Option Bytes := d.files.lookup n

def names (d : Directory ν) : List ν := d.files.keys

/-- Open with `O_CREATE`: a missing file comes into being empty. -/
def create (d : Directory ν) (n : ν) : Directory ν :=
  if (d.content? n).isSome then d else { d with files := d.files.insert n [] }

/-- Change the bytes of a file. A file that has been unlinked is no longer
in the directory, so nothing shows there. -/
def modify (d : Directory ν) (n : ν) (f : Bytes → Bytes) : Directory ν :=
  match d.content? n with
  | some b => { d with files := d.files.insert n (f b) }
  | none => d

def remove (d : Directory ν) (n : ν) : Directory ν := { d with files := d.files.erase n }

/-! ## Contents after an operation -/

theorem mem_names {d : Directory ν} {n : ν} : n ∈ d.names ↔ (d.content? n).isSome := by
  rw [names, content?, AList.lookup_isSome, AList.mem_keys]

@[simp] theorem content?_create_self (d : Directory ν) (n : ν) :
    (d.create n).content? n = some ((d.content? n).getD []) := by
  unfold create
  cases h : d.content? n with
  | some b => simp [h]
  | none => simp [content?]

@[simp] theorem content?_create_of_ne (d : Directory ν) {n m : ν} (h : m ≠ n) :
    (d.create n).content? m = d.content? m := by
  unfold create
  split
  · rfl
  · simp [content?, AList.lookup_insert_ne h]

@[simp] theorem content?_modify_self (d : Directory ν) (n : ν) (f : Bytes → Bytes) :
    (d.modify n f).content? n = (d.content? n).map f := by
  unfold modify
  cases h : d.content? n with
  | some b => simp [content?]
  | none => simp [h]

theorem content?_modify_of_some {d : Directory ν} {n : ν} {b : Bytes}
    (h : d.content? n = some b) (f : Bytes → Bytes) : (d.modify n f).content? n = some (f b) := by
  rw [content?_modify_self, h, Option.map_some]

@[simp] theorem content?_modify_of_ne (d : Directory ν) {n m : ν} (h : m ≠ n)
    (f : Bytes → Bytes) : (d.modify n f).content? m = d.content? m := by
  unfold modify
  split
  · simp [content?, AList.lookup_insert_ne h]
  · rfl

@[simp] theorem content?_remove_self (d : Directory ν) (n : ν) :
    (d.remove n).content? n = none := by
  simp [remove, content?]

@[simp] theorem content?_remove_of_ne (d : Directory ν) {n m : ν} (h : m ≠ n) :
    (d.remove n).content? m = d.content? m := by
  simp [remove, content?, AList.lookup_erase_ne h]

@[simp] theorem present_create (d : Directory ν) (n : ν) : (d.create n).present = d.present := by
  unfold create; split <;> rfl

@[simp] theorem present_modify (d : Directory ν) (n : ν) (f : Bytes → Bytes) :
    (d.modify n f).present = d.present := by
  unfold modify; split <;> rfl

@[simp] theorem present_remove (d : Directory ν) (n : ν) : (d.remove n).present = d.present := rfl

/-! ## Listings after an operation -/

omit [DecidableEq ν] in
@[simp] theorem names_empty : (empty : Directory ν).names = [] := rfl

theorem names_modify_perm (d : Directory ν) (n : ν) (f : Bytes → Bytes) :
    (d.modify n f).names.Perm d.names := by
  unfold modify
  split
  · rename_i b hb
    have hmem : n ∈ d.files.keys := mem_names.mpr (by rw [hb]; rfl)
    simp only [names, AList.keys_insert]
    exact (List.perm_cons_erase hmem).symm
  · exact .refl _

theorem names_create_perm (d : Directory ν) {n : ν} (h : n ∉ d.names) :
    (d.create n).names.Perm (n :: d.names) := by
  have hnone : (d.content? n).isSome = false := by
    simpa [mem_names] using h
  have hnot : n ∉ d.files.keys := h
  simp [create, hnone, names, AList.keys_insert, List.erase_of_not_mem hnot]

theorem create_of_mem {d : Directory ν} {n : ν} (h : n ∈ d.names) : d.create n = d := by
  simp [create, mem_names.mp h]

theorem names_remove_of_perm {d : Directory ν} {n : ν} {ns : List ν}
    (h : d.names.Perm (n :: ns)) : (d.remove n).names.Perm ns := by
  have he := h.erase n
  rw [List.erase_cons_head] at he
  rw [names, remove, AList.keys_erase]
  exact he

/-! ## Frame condition -/

/-- `d'` is `d` except for the bytes of the files `ns`. -/
structure Touches (ns : List ν) (d d' : Directory ν) : Prop where
  present : d'.present = d.present
  others : ∀ m, m ∉ ns → d'.content? m = d.content? m
  names : d'.names.Perm d.names

theorem Touches.refl (ns : List ν) (d : Directory ν) : Touches ns d d :=
  ⟨rfl, fun _ _ => rfl, .refl _⟩

theorem Touches.trans {ns : List ν} {d d' d'' : Directory ν} (h : Touches ns d d')
    (h' : Touches ns d' d'') : Touches ns d d'' :=
  ⟨h'.present.trans h.present, fun m hm => (h'.others m hm).trans (h.others m hm),
    h'.names.trans h.names⟩

theorem Touches.mono {ns ns' : List ν} {d d' : Directory ν} (h : Touches ns d d')
    (hsub : ns ⊆ ns') : Touches ns' d d' :=
  ⟨h.present, fun m hm => h.others m fun hm' => hm (hsub hm'), h.names⟩

theorem touches_modify (d : Directory ν) (n : ν) (f : Bytes → Bytes) :
    Touches [n] d (d.modify n f) :=
  ⟨present_modify .., fun _ hm => content?_modify_of_ne d (by simpa using hm) f,
    names_modify_perm ..⟩

end Directory

end DistributedLog
