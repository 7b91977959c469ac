import TmakeProof.Expansion
import TmakeProof.Paths
import Mathlib.Data.List.AList

/-! # Libraries made from libraries

`ArchiveLib` and `SharedLib` record the objects of a library under its alias
`<lib>name`, and `expand-objects` replaces such an alias by the recorded objects.
These may be aliases in turn, which stay as they are.
-/
namespace Tmake.Libraries
open Expansion

/-- `string match <lib>* $obj`. -/
def isAlias (obj : String) : Bool := "<lib>".toList.isPrefixOf obj.toList

/-- `file-build`. -/
def fileBuild (build : Path) (path : Path) : Path :=
  if path.toList.head? = some '<' then path else fileJoin build path

/-- A command that defines a library.  `ArchiveLib` publishes with `--publish` only, `SharedLib`
always. -/
structure Library where
  basename : String
  sources : List String
  publish : Bool

def Library.alias (lib : Library) : String := "<lib>" ++ lib.basename

/-- `Objects`; `object` is what `Object` returns for a source. -/
def objects (object : String → String) (sources : List String) : List String :=
  sources.map fun src => if isAlias src then src else object src

abbrev ObjMap := AList fun _ : String => List String

/-- What `ArchiveLib` and `SharedLib` do to `tmakedrb(objmap)`. -/
def defineLib (object : String → String) (objmap : ObjMap) (lib : Library) : ObjMap :=
  if lib.publish then objmap.insert lib.alias (objects object lib.sources) else objmap

/-- `tmakedrb(objmap)` after a sequence of commands. -/
def objMap (object : String → String) (libs : List Library) : ObjMap :=
  libs.foldl (defineLib object) ∅

/-- `expand-objects`; it fails for the alias of a library that is not known. -/
def expandObjects (build : Path) (objmap : ObjMap) : List String → Option (List String)
  | [] => some []
  | obj :: objs =>
    if isAlias obj then
      match objmap.lookup obj with
      | none => none
      | some l => (expandObjects build objmap objs).map (l.map (fileBuild build) ++ ·)
    else (expandObjects build objmap objs).map (obj :: ·)

section
variable {build : Path} {object : String → String} {objmap : ObjMap}

theorem expandObjects_eq (objs : List String) :
    expandObjects build objmap objs = expandOnce isAlias objmap.lookup (fileBuild build) objs := by
  induction objs with
  | nil => rfl
  | cons obj objs ih =>
    rw [expandObjects, expandOnce, ih]
    cases objmap.lookup obj <;> rfl

/-- An alias is no path. -/
theorem fileBuild_alias {obj : String} (h : isAlias obj = true) : fileBuild build obj = obj := by
  obtain ⟨tail, htail⟩ := List.isPrefixOf_iff_prefix.mp h
  rw [fileBuild, if_pos]
  rw [← htail]
  rfl

/-- The complete expansion of a list of objects: every alias is replaced by all the objects that
it contains through any number of libraries, and no alias is left. -/
structure Expanded (build : Path) (objmap : ObjMap) (objs result : List String) : Prop where
  expands : Expands isAlias objmap.lookup (fileBuild build) id objs result
  paths : ∀ obj ∈ result, isAlias obj = false

/-- `expand-objects` gives the complete expansion exactly when no library among the objects has
itself a library among its objects. -/
theorem expand_objects (build : Path) (object : String → String) (libs : List Library)
    (objs : List String) (hobjs : ∀ obj ∈ objs, isAlias obj = true → obj ∈ objMap object libs) :
    ∃ result, expandObjects build (objMap object libs) objs = some result ∧
      (Expanded build (objMap object libs) objs result ↔
        ∀ lib ∈ objs, isAlias lib = true → ∀ l, (objMap object libs).lookup lib = some l →
          ∀ obj ∈ l, isAlias (fileBuild build obj) = false) := by
  have hsome : (expandObjects build (objMap object libs) objs).isSome = true := by
    rw [expandObjects_eq]
    exact expandOnce_isSome fun obj hobj halias => AList.lookup_isSome.mpr (hobjs obj hobj halias)
  obtain ⟨result, hresult⟩ := Option.isSome_iff_exists.mp hsome
  refine ⟨result, hresult, ?_⟩
  have hiff := expands_expandOnce_iff (fun obj => fileBuild_alias)
    ((expandObjects_eq objs).symm.trans hresult)
  exact ⟨fun h => hiff.mp ⟨h.expands, h.paths⟩, fun h => ⟨(hiff.mpr h).1, (hiff.mpr h).2⟩⟩

theorem expand_objects_one :
    ∃ result, expandObjects "objdir" (objMap (fun _ => "x.o") [⟨"a", ["x.c"], true⟩]) ["<lib>a"] =
        some result ∧
      Expanded "objdir" (objMap (fun _ => "x.o") [⟨"a", ["x.c"], true⟩]) ["<lib>a"] result := by
  have hknown : "<lib>a" ∈ objMap (fun _ => "x.o") [⟨"a", ["x.c"], true⟩] := by decide
  obtain ⟨result, hresult, hiff⟩ := expand_objects "objdir" (fun _ => "x.o")
    [⟨"a", ["x.c"], true⟩] ["<lib>a"] fun obj hobj _ => List.mem_singleton.mp hobj ▸ hknown
  refine ⟨result, hresult, hiff.mpr fun lib hlib _ l hl obj hobj => ?_⟩
  have hlookup : (objMap (fun _ => "x.o") [⟨"a", ["x.c"], true⟩]).lookup "<lib>a" = some ["x.o"] := by
    decide
  rw [List.mem_singleton.mp hlib, hlookup] at hl
  obtain rfl := Option.some.inj hl
  rw [List.mem_singleton.mp hobj]
  decide

/-- A library made of a library made of an object. -/
theorem expand_objects_nested :
    ¬∃ result, expandObjects "objdir"
        (objMap (fun _ => "x.o") [⟨"a", ["x.c"], true⟩, ⟨"b", ["<lib>a"], true⟩]) ["<lib>b"] =
          some result ∧
      Expanded "objdir" (objMap (fun _ => "x.o") [⟨"a", ["x.c"], true⟩, ⟨"b", ["<lib>a"], true⟩])
        ["<lib>b"] result := by
  rintro ⟨result, hresult, hexpanded⟩
  have hleft : expandObjects "objdir"
      (objMap (fun _ => "x.o") [⟨"a", ["x.c"], true⟩, ⟨"b", ["<lib>a"], true⟩]) ["<lib>b"] =
        some ["<lib>a"] := by
    decide
  obtain rfl := Option.some.inj (hleft.symm.trans hresult)
  exact absurd (hexpanded.paths "<lib>a" List.mem_cons_self) (by decide)

/-! ## The libraries of a project -/

/-- The commands of a project: every alias that is used is that of a library that has been
published, and no library is published under the alias of another. -/
inductive Ordered (object : String → String) : List Library → Prop where
  | nil : Ordered object []
  | snoc {libs : List Library} {lib : Library} (h : Ordered object libs)
    (hsources : ∀ src ∈ lib.sources, isAlias src = true → src ∈ objMap object libs)
    (hnew : lib.publish = true → lib.alias ∉ objMap object libs) : Ordered object (libs ++ [lib])

theorem objMap_concat (libs : List Library) (lib : Library) :
    objMap object (libs ++ [lib]) = defineLib object (objMap object libs) lib := by
  rw [objMap, List.foldl_append]
  rfl

theorem mem_objects {sources : List String} (hobject : ∀ src, isAlias (object src) = false)
    {obj : String} (h : obj ∈ objects object sources) (halias : isAlias obj = true) :
    obj ∈ sources := by
  obtain ⟨src, hsrc, rfl⟩ := List.mem_map.mp h
  split
  · exact hsrc
  · rename_i hnot
    rw [if_neg hnot, hobject] at halias
    contradiction

theorem Ordered.ranked (hobject : ∀ src, isAlias (object src) = false) {libs : List Library}
    (h : Ordered object libs) : ∃ rank, Ranked isAlias (objMap object libs).lookup rank := by
  induction h with
  | nil => exact ⟨fun _ => 0, fun x b hb => absurd hb (by simp [objMap])⟩
  | @snoc libs lib h hsources hnew ih =>
    obtain ⟨rank, hrank⟩ := ih
    rw [objMap_concat, defineLib]
    split
    · rename_i hpublish
      have hnew := hnew hpublish
      obtain ⟨n, hn⟩ := exists_rank_lt rank lib.sources
      refine ⟨fun x => if x = lib.alias then n else rank x, fun x b hb y hy halias => ?_⟩
      -- an alias that was known keeps its objects and its rank
      have hold : y ∈ objMap object libs →
          (((objMap object libs).insert lib.alias (objects object lib.sources)).lookup y).isSome =
            true ∧ (if y = lib.alias then n else rank y) = rank y := by
        intro hy
        have hne : y ≠ lib.alias := fun heq => hnew (heq ▸ hy)
        rw [AList.lookup_insert_ne hne, if_neg hne]
        exact ⟨AList.lookup_isSome.mpr hy, rfl⟩
      dsimp only at hb ⊢
      by_cases hx : x = lib.alias
      · rw [hx, AList.lookup_insert] at hb
        obtain rfl := Option.some.inj hb
        have hsource := mem_objects hobject hy halias
        obtain ⟨hsome, hsame⟩ := hold (hsources y hsource halias)
        rw [if_pos hx, hsame]
        exact ⟨hsome, hn y hsource⟩
      · rw [AList.lookup_insert_ne hx] at hb
        obtain ⟨hknown, hlt⟩ := hrank x b hb y hy halias
        obtain ⟨hsome, hsame⟩ := hold (AList.lookup_isSome.mp hknown)
        rw [if_neg hx, hsame]
        exact ⟨hsome, hlt⟩
    · exact ⟨rank, hrank⟩

/-- In such a project every list of objects has one complete expansion. -/
theorem Ordered.expansion (hobject : ∀ src, isAlias (object src) = false) {libs : List Library}
    (h : Ordered object libs) (objs : List String)
    (hobjs : ∀ obj ∈ objs, isAlias obj = true → obj ∈ objMap object libs) :
    ∃! result, Expands isAlias (objMap object libs).lookup (fileBuild build) id objs result := by
  obtain ⟨rank, hrank⟩ := h.ranked hobject
  obtain ⟨result, hresult⟩ := hrank.expands id objs fun obj hobj halias =>
    AList.lookup_isSome.mpr (hobjs obj hobj halias)
  exact ⟨result, hresult, fun other hother => hother.unique hresult⟩

end
end Tmake.Libraries
