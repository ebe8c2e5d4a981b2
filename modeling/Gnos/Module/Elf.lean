import Mathlib

/-! The checks of `src/kernel/module/module_elf.c` on the image of a module, and what `map_sections`
of `src/kernel/module/module.c` then copies out of it.  `size_t` has 32 bits, the fields of the
image have up to 64. -/

namespace Gnos.Module

structure Shdr where
  type : ℕ
  flags : ℕ := 0
  offset : ℕ
  size : ℕ
  link : ℕ := 0
  info : ℕ := 0
  addralign : ℕ := 1
  entsize : ℕ := 0

/-- The header of an image of `size` bytes, and the records from `e_shoff` on. -/
structure Image where
  size : ℕ
  ident : List ℕ := [0x7f, 0x45, 0x4c, 0x46, 2, 1, 1]
  type : ℕ := 1
  machine : ℕ := 62
  version : ℕ := 1
  ehsize : ℕ := 64
  shentsize : ℕ := 64
  shoff : ℕ
  shnum : ℕ
  shstrndx : ℕ
  sections : ℕ → Shdr

def shtSymtab : ℕ := 2
def shtStrtab : ℕ := 3
def shtRela : ℕ := 4
def shtNobits : ℕ := 8
def shdrSize : ℕ := 64

def sizeT (n : ℕ) : ℕ := n % 2 ^ 32

def rangeValid (offset length total : ℕ) : Bool :=
  sizeT offset ≤ total && sizeT length ≤ total - sizeT offset

def powerOfTwo (value : ℕ) : Bool := value = 0 || value &&& (value - 1) = 0

namespace Image

variable (im : Image)

/-- One turn of the loop of `module_elf_validate`. -/
def sectionValid (count : ℕ) (s : Shdr) : Bool :=
  powerOfTwo s.addralign && (s.type = shtNobits || rangeValid s.offset s.size im.size) &&
    (s.type ≠ shtSymtab || s.entsize = 24 && s.link < count && s.size % 24 = 0) &&
    (s.type ≠ shtRela || s.entsize = 24 && s.link < count && s.info < count && s.size % 24 = 0)

def sectionCount : ℕ := sizeT (if im.shnum ≠ 0 then im.shnum else (im.sections 0).size)

def sectionNameIndex : ℕ := if im.shstrndx = 0xffff then (im.sections 0).link else im.shstrndx

/-- `module_elf_validate`: the number of sections, and the index of the one with their names. -/
def moduleElfValidate : Option (ℕ × ℕ) :=
  let count := im.sectionCount
  let names := im.sectionNameIndex
  if im.size < 64 then none
  else if im.ident ≠ [0x7f, 0x45, 0x4c, 0x46, 2, 1, 1] ∨ im.type ≠ 1 ∨ im.machine ≠ 62 ∨
      im.version ≠ 1 ∨ im.ehsize ≠ 64 ∨ im.shentsize ≠ 64 then none
  else if im.shoff = 0 ∨ !rangeValid im.shoff shdrSize im.size then none
  else if count = 0 ∨ 0xffff < count ∨ !rangeValid im.shoff (count * shdrSize) im.size then none
  else if names ≠ 0 ∧ count ≤ names then none
  else if !(List.range count).all fun i => im.sectionValid count (im.sections i) then none
  else if names ≠ 0 ∧ (im.sections names).type ≠ shtStrtab then none
  else some (count, names)

/-- Where `map_sections` copies from, and how many bytes.  It ends at a section that it finds no
room or no frames for. -/
def mapSections (count : ℕ) (fails : ℕ → Bool) : List (ℕ × ℕ) :=
  let alloc (i : ℕ) : Bool := (im.sections i).flags.testBit 1
  ((List.range count).takeWhile fun i => !(alloc i && fails i)).filterMap fun i =>
    let s := im.sections i
    if alloc i && s.type ≠ shtNobits && s.size ≠ 0 then some (s.offset, sizeT s.size) else none

/-- The table of sections and what the sections hold lie in the image. -/
def Inside (count : ℕ) : Prop :=
  im.shoff + count * shdrSize ≤ im.size ∧ ∀ i < count, (im.sections i).type ≠ shtNobits →
    (im.sections i).offset + (im.sections i).size ≤ im.size

/-- No offset and no size is lost in a `size_t`. -/
def Narrow (count : ℕ) : Prop :=
  im.shoff < 2 ^ 32 ∧ ∀ i < count, (im.sections i).type ≠ shtNobits →
    (im.sections i).offset < 2 ^ 32 ∧ (im.sections i).size < 2 ^ 32

end Image

theorem rangeValid_iff {offset length total : ℕ} (hOffset : offset < 2 ^ 32)
    (hLength : length < 2 ^ 32) : rangeValid offset length total ↔ offset + length ≤ total := by
  simp only [rangeValid, sizeT, Nat.mod_eq_of_lt hOffset, Nat.mod_eq_of_lt hLength,
    Bool.and_eq_true, decide_eq_true_eq]
  omega

variable {im : Image} {count names : ℕ}

theorem validated (h : im.moduleElfValidate = some (count, names)) : count ≤ 0xffff ∧
    rangeValid im.shoff (count * shdrSize) im.size ∧ ∀ i < count, (im.sections i).type ≠ shtNobits →
      rangeValid (im.sections i).offset (im.sections i).size im.size := by
  unfold Image.moduleElfValidate at h
  dsimp only at h
  split_ifs at h with hShort hHead hTable hCount hNames hAll hStrings
  obtain ⟨rfl, rfl⟩ := Prod.mk.inj (Option.some.inj h)
  simp only [not_or, not_lt, Bool.not_eq_true', Bool.not_eq_false] at hCount hAll
  refine ⟨hCount.2.1, hCount.2.2, fun i hi hType => ?_⟩
  have hValid := List.all_eq_true.mp hAll i (List.mem_range.mpr hi)
  simp only [Image.sectionValid, Bool.and_eq_true, Bool.or_eq_true, decide_eq_true_eq, hType,
    false_or] at hValid
  exact hValid.1.1.2

/-- An image that passes has its sections inside exactly when its offsets and sizes have no more
than 32 bits, and then nothing is copied from outside. -/
theorem validated_inside_iff (hSize : im.size < 2 ^ 32)
    (h : im.moduleElfValidate = some (count, names)) (fails : ℕ → Bool) :
    (im.Inside count ↔ im.Narrow count) ∧
      (im.Narrow count → ∀ c ∈ im.mapSections count fails, c.1 + c.2 ≤ im.size) := by
  obtain ⟨hCount, hTable, hSections⟩ := validated h
  have hInside : im.Narrow count → im.Inside count := by
    rintro ⟨hShoff, hNarrow⟩
    refine ⟨(rangeValid_iff hShoff (by unfold shdrSize; omega)).mp hTable, fun i hi hType => ?_⟩
    obtain ⟨hOffset, hLength⟩ := hNarrow i hi hType
    exact (rangeValid_iff hOffset hLength).mp (hSections i hi hType)
  refine ⟨⟨fun hIn => ⟨by have := hIn.1; omega, fun i hi hType => ?_⟩, hInside⟩,
    fun hNarrow c hc => ?_⟩
  · have hRange := hIn.2 i hi hType
    omega
  · obtain ⟨i, hi, hCopy⟩ := List.mem_filterMap.mp hc
    have hi := List.mem_range.mp ((List.takeWhile_sublist _).subset hi)
    dsimp only at hCopy
    split_ifs at hCopy with hKind
    obtain rfl := Option.some.inj hCopy
    have hRange := (hInside hNarrow).2 i hi (by simp_all)
    have hLess : sizeT (im.sections i).size ≤ (im.sections i).size := Nat.mod_le _ _
    dsimp only
    omega

/-- An image of 128 bytes with one section of 16 bytes. -/
def oneSection (offset : ℕ) : Image :=
  { size := 128, shoff := 64, shnum := 1, shstrndx := 0,
    sections := fun _ => { type := 1, flags := 2, offset := offset, size := 16 } }

theorem validated_inside_one : (oneSection 64).Inside 1 :=
  (validated_inside_iff (by decide) (by decide : _ = some (1, 0)) fun _ => false).1.mpr
    ⟨by decide, fun _ _ _ => (by decide : 64 < 2 ^ 32 ∧ 16 < 2 ^ 32)⟩

/-- The section begins 2 ^ 32 bytes behind the image, the image passes, and 16 bytes are copied from
there. -/
theorem copied_from_outside : (oneSection (2 ^ 32)).moduleElfValidate = some (1, 0) ∧
    (oneSection (2 ^ 32)).mapSections 1 (fun _ => false) = [(2 ^ 32, 16)] := by
  decide

end Gnos.Module
