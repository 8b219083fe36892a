import Watchwoman.Lib.Joined
import Watchwoman.Query.Parse

/-!
# Files below a directory

The term `dirname` compares texts: the parent of a path is the directory, or starts with the
directory and a slash. The `path` generator strips components. On normalised UTF-8 paths the two mean
the same, that the names of the directory are a proper prefix of those of the path
(`dirname_iff`); a sibling whose name goes on where the directory's ends is neither.
-/

namespace Watchwoman

open Joined

def relPath (names : List String) : RelPath := names.map Utf8.bytesOf

def joinNames (names : List String) : String := "/".intercalate names

def Normalised (names : List String) : Prop := ∀ n ∈ names, IsName (Utf8.bytesOf n)

section Normalised

variable {ds ps : List String}

theorem Normalised.separable (h : Normalised ds) : Separable 0x2F (relPath ds) := by
  intro b hb
  obtain ⟨n, hn, rfl⟩ := List.mem_map.mp hb
  exact ⟨(h n hn).nonempty, (h n hn).noSlash⟩

theorem bytesOf_joinNames (names : List String) :
    Utf8.bytesOf (joinNames names) = [0x2F].intercalate (relPath names) :=
  Utf8.bytesOf_intercalate "/" names

theorem toStringLossy_relPath (names : List String) :
    (relPath names).toStringLossy = joinNames names := by
  unfold RelPath.toStringLossy RelPath.bytes
  rw [← bytesOf_joinNames, Utf8.lossy_bytesOf]

theorem relPath_injective : Function.Injective relPath :=
  List.map_injective_iff.mpr Utf8.bytesOf_injective

theorem relPath_prefix_iff : relPath ds <+: relPath ps ↔ ds <+: ps := by
  constructor
  · rintro ⟨t, ht⟩
    obtain ⟨a, b, rfl, ha, -⟩ := List.map_eq_append_iff.mp ht.symm
    rw [relPath_injective ha]
    exact List.prefix_append _ _
  · intro h
    exact h.map _

/-! ## The text of the parent -/

/-- A text is the directory or goes on with a slash exactly if its names start with those of the
directory. -/
theorem joinNames_below_iff (hds : ds ≠ []) (hd : Normalised ds) (hp : Normalised ps) :
    joinNames ps = joinNames ds ∨ startsWith (joinNames ps) (joinNames ds ++ "/") = true ↔
      ds <+: ps := by
  constructor
  · rintro (heq | hstarts)
    · have hbytes := congrArg Utf8.bytesOf heq
      rw [bytesOf_joinNames, bytesOf_joinNames] at hbytes
      rw [relPath_injective (intercalate_inj hp.separable hd.separable hbytes)]
    · obtain ⟨t, ht⟩ := List.isPrefixOf_iff_prefix.mp hstarts
      have htext : joinNames ps = joinNames ds ++ "/" ++ String.ofList t := by
        rw [← String.ofList_toList (s := joinNames ps), ← ht, String.ofList_append,
          String.ofList_toList]
      have hbytes := congrArg Utf8.bytesOf htext
      rw [Utf8.bytesOf_append, Utf8.bytesOf_append, bytesOf_joinNames, bytesOf_joinNames,
        List.append_assoc] at hbytes
      exact relPath_prefix_iff.mp
        (prefix_of_intercalate hd.separable hp.separable (by simpa [relPath] using hds) hbytes)
  · rintro ⟨es, rfl⟩
    by_cases hes : es = []
    · exact .inl (by rw [hes, List.append_nil])
    · right
      have htext : joinNames (ds ++ es) = joinNames ds ++ "/" ++ joinNames es :=
        String.intercalate_append_of_ne_nil hds hes
      unfold startsWith
      rw [htext, List.isPrefixOf_iff_prefix, String.toList_append (s := joinNames ds ++ "/")]
      exact List.prefix_append _ _

/-! ## The two tests -/

theorem prefix_dropLast_iff {α : Type} {l l' : List α} (hl : l' ≠ []) :
    l <+: l'.dropLast ↔ l <+: l' ∧ l ≠ l' := by
  obtain ⟨init, a, rfl⟩ := List.eq_nil_or_concat l' |>.resolve_left hl
  rw [List.concat_eq_append, List.dropLast_concat, List.prefix_concat_iff]
  constructor
  · intro h
    refine ⟨.inr h, ?_⟩
    rintro rfl
    have := h.length_le
    rw [List.length_append, List.length_singleton] at this
    omega
  · rintro ⟨rfl | h, hne⟩
    · exact absurd rfl hne
    · exact h

theorem matchDirname_iff (hds : ds ≠ []) (hd : Normalised ds) (hp : Normalised ps) :
    Expr.matchDirname (relPath ps) (joinNames ds) true = true ↔ ds <+: ps ∧ ds ≠ ps := by
  unfold Expr.matchDirname RelPath.parent
  by_cases hps : ps = []
  · rw [hps]
    refine iff_of_false (by simp [relPath]) ?_
    rintro ⟨h, -⟩
    exact hds (List.prefix_nil.mp h)
  · have hne : relPath ps ≠ [] := by simpa [relPath] using hps
    have hparent : (relPath ps).dropLast = relPath ps.dropLast := List.map_dropLast.symm
    rw [if_neg hne, hparent]
    simp only [toStringLossy_relPath, if_true, Bool.or_eq_true, beq_iff_eq]
    have hinit : Normalised ps.dropLast := fun n hn => hp n (List.mem_of_mem_dropLast hn)
    exact (joinNames_below_iff hds hd hinit).trans (prefix_dropLast_iff hps)

theorem components_joinNames (hds : ds ≠ []) (hd : Normalised ds) :
    components (joinNames ds) = (relPath ds).map .normal :=
  components_of_bytes (by simpa [relPath] using hds) (List.forall_mem_map.mpr hd)
    (bytesOf_joinNames ds)

theorem acceptPath_iff (hds : ds ≠ []) (hd : Normalised ds) :
    Generators.acceptPath (relPath ps) ⟨joinNames ds, none⟩ = true ↔ ds <+: ps := by
  have hne : joinNames ds ≠ "" := by
    intro h
    have hbytes := congrArg Utf8.bytesOf h
    rw [bytesOf_joinNames] at hbytes
    have hnil := intercalate_inj hd.separable (fun _ hb => absurd hb List.not_mem_nil) hbytes
    exact hds (List.map_eq_nil_iff.mp hnil)
  unfold Generators.acceptPath
  rw [if_neg hne, components_joinNames hds hd, ← relPath_prefix_iff]
  simp only [Option.map_none, Option.getD_none, Option.any_eq_true]
  constructor
  · rintro ⟨q, hq, -⟩
    obtain ⟨b, hb, heq⟩ := RelPath.stripPrefix_eq_some_iff.mp hq
    rw [heq, List.map_injective_iff.mpr (fun _ _ => Component.normal.inj) hb]
    exact List.prefix_append _ _
  · rintro ⟨q, hq⟩
    exact ⟨q, RelPath.stripPrefix_eq_some_iff.mpr ⟨_, rfl, hq.symm⟩, trivial⟩

end Normalised

/-- **`dirname` and the path generator agree.** For a non-empty normalised directory and a
normalised path, the case-sensitive term holds exactly if the generator accepts the path and the
path is not the directory itself, which is to say that the directory's names are a proper prefix of
those of the path. -/
theorem dirname_iff (env : ParseEnv) (entry : FileEntry) (ctx : EvalCtx) (ds ps : List String)
    (hds : ds ≠ []) (hd : Normalised ds) (hp : Normalised ps) (hrel : ctx.rel = relPath ps)
    (hcase : ctx.caseSensitive = true) :
    ∃ term spec, Expr.parse env (.array [.string "dirname", .string (joinNames ds)]) = .ok term ∧
      Generators.parsePathSpec (.string (joinNames ds)) = .ok spec ∧
      (term.eval entry ctx = true ↔
        ctx.rel ≠ relPath ds ∧ Generators.acceptPath ctx.rel spec = true) ∧
      (term.eval entry ctx = true ↔ ds <+: ps ∧ ds ≠ ps) := by
  have hterm : (Expr.dirname (joinNames ds) true).eval entry ctx = true ↔ ds <+: ps ∧ ds ≠ ps := by
    rw [Expr.eval, hrel, hcase]
    exact matchDirname_iff hds hd hp
  refine ⟨.dirname (joinNames ds) true, ⟨joinNames ds, none⟩, rfl, rfl, ?_, hterm⟩
  rw [hterm, hrel, acceptPath_iff hds hd]
  constructor
  · rintro ⟨hpre, hne⟩
    exact ⟨fun heq => hne (relPath_injective heq).symm, hpre⟩
  · rintro ⟨hne, hpre⟩
    exact ⟨hpre, fun heq => hne (congrArg relPath heq.symm)⟩

/-- An environment in which no pattern compiles. -/
def noPatterns : ParseEnv where
  buildGlob := fun _ _ _ => .error ""
  buildRegex := fun _ _ => .error ""
  debugText := fun _ => ""

theorem normalised_src : Normalised ["src"] :=
  List.forall_mem_singleton.mpr ⟨by decide, by decide, by decide, by decide⟩

theorem normalised_sibling : Normalised ["src2", "a"] :=
  List.forall_mem_cons.mpr ⟨⟨by decide, by decide, by decide, by decide⟩,
    List.forall_mem_singleton.mpr ⟨by decide, by decide, by decide, by decide⟩⟩

theorem dirname_iff_sibling :
    ∃ term spec, Expr.parse noPatterns (.array [.string "dirname", .string "src"]) = .ok term ∧
      Generators.parsePathSpec (.string "src") = .ok spec ∧
      (term.eval (.missing 1) ⟨.new 0 0 0, relPath ["src2", "a"], true⟩ = true ↔
        relPath ["src2", "a"] ≠ relPath ["src"] ∧
          Generators.acceptPath (relPath ["src2", "a"]) spec = true) ∧
      (term.eval (.missing 1) ⟨.new 0 0 0, relPath ["src2", "a"], true⟩ = true ↔
        ["src"] <+: ["src2", "a"] ∧ ["src"] ≠ ["src2", "a"]) :=
  dirname_iff noPatterns (.missing 1) ⟨.new 0 0 0, relPath ["src2", "a"], true⟩ ["src"]
    ["src2", "a"] (by decide) normalised_src normalised_sibling rfl rfl

end Watchwoman
