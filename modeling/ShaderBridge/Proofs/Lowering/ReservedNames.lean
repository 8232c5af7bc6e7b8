import ShaderBridge.Proofs.Lowering.Declarations
import ShaderBridge.Hlsl.Preamble
import Mathlib.Data.List.SplitBy

namespace ShaderBridge

namespace Hlsl

/-- Whether a name begins the way names do that no source should declare. -/
def IsReserved (name : String) : Prop :=
  ['_', '_'] <+: name.toList

instance : DecidablePred IsReserved :=
  fun name => inferInstanceAs (Decidable (['_', '_'] <+: name.toList))

/-- Whether a name is neither that of a temporary nor that of an address. -/
def IsOwn (name : String) : Prop :=
  ∀ k, name ≠ tempName k ∧ name ≠ offsetName k

theorem prefix_tempName (k : Nat) : ['_', '_', 't'] <+: (tempName k).toList := by
  rw [tempName, String.toList_append]
  exact ⟨['e', 'm', 'p'] ++ (decimal k).toList, rfl⟩

theorem prefix_offsetName (k : Nat) : ['_', '_', 'o'] <+: (offsetName k).toList := by
  rw [offsetName, String.toList_append]
  exact ⟨['f', 'f', 's', 'e', 't'] ++ (decimal k).toList, rfl⟩

theorem isOwn_of_prefixes {name : String} (htemp : ¬ ['_', '_', 't'] <+: name.toList)
    (hoffset : ¬ ['_', '_', 'o'] <+: name.toList) : IsOwn name :=
  fun k => ⟨fun h => htemp (h ▸ prefix_tempName k), fun h => hoffset (h ▸ prefix_offsetName k)⟩

theorem isOwn_of_not_isReserved {name : String} (h : ¬ IsReserved name) : IsOwn name :=
  isOwn_of_prefixes (fun ht => h (List.IsPrefix.trans ⟨['t'], rfl⟩ ht))
    fun ho => h (List.IsPrefix.trans ⟨['o'], rfl⟩ ho)

theorem isOwn_accessorName (field : String) : IsOwn (accessorName field) := by
  unfold accessorName
  apply isOwn_of_prefixes <;> simp [String.toList_append]

theorem isOwn_samplerName {texture : String} (h : ¬ IsReserved texture) :
    IsOwn (samplerName texture) := by
  unfold IsReserved at h
  unfold samplerName
  rcases hcs : texture.toList with _ | ⟨c, _ | ⟨d, rest⟩⟩
  · apply isOwn_of_prefixes <;> simp [String.toList_append, hcs]
  · apply isOwn_of_prefixes <;> simp [String.toList_append, hcs]
  · apply isOwn_of_not_isReserved
    simpa [IsReserved, String.toList_append, hcs] using h

/-- No two underscores stand side by side in a text, nor does one stand at either end. -/
def IsSpaced (text : String) : Prop :=
  text.toList.IsChain (fun a b => ¬ (a = '_' ∧ b = '_')) ∧ text.toList.head? ≠ some '_' ∧
    text.toList.getLast? ≠ some '_'

instance : DecidablePred IsSpaced :=
  fun text => inferInstanceAs (Decidable (text.toList.IsChain _ ∧ _ ∧ _))

theorem IsSpaced.append {a b : String} (ha : IsSpaced a) (hb : IsSpaced b) : IsSpaced (a ++ b) := by
  obtain ⟨hchain, hhead, hlast⟩ := ha
  obtain ⟨hchain', hhead', hlast'⟩ := hb
  unfold IsSpaced
  rw [String.toList_append]
  refine ⟨List.isChain_append.2 ⟨hchain, hchain', ?_⟩, ?_, ?_⟩
  · rintro x hx y hy ⟨rfl, -⟩
    exact hlast hx
  · rw [List.head?_append]
    cases hfirst : a.toList.head? with
    | none => exact hhead'
    | some c => rwa [hfirst] at hhead
  · rw [List.getLast?_append]
    cases hend : b.toList.getLast? with
    | none => exact hlast
    | some c => rwa [hend] at hlast'

theorem not_isReserved_of_mem_wordsOf {text word : String} (h : IsSpaced text)
    (hword : word ∈ wordsOf text) : ¬ IsReserved word := by
  obtain ⟨run, hrun, rfl⟩ := List.mem_map.1 hword
  have hinfix : run <:+: text.toList := by
    rw [← List.flatten_splitBy (fun a b => isWordChar a == isWordChar b) text.toList]
    exact List.infix_of_mem_flatten hrun
  rintro ⟨rest, hrest⟩
  rw [String.toList_ofList] at hrest
  have hchain := List.IsChain.infix h.1 hinfix
  rw [← hrest] at hchain
  exact hchain.rel ⟨rfl, rfl⟩

set_option maxRecDepth 2000 in
open Preamble in
theorem isSpaced_functions (stage : Stage) : IsSpaced (functions stage) := by
  -- The texts are taken apart into characters first, since it takes long to read them as strings.
  have htextures : IsSpaced textureFunctions := by
    unfold IsSpaced
    simp only [textureFunctions, texelFetch, textureLod, block, String.toList_join,
      String.toList_append, String.reduceToList, List.map_cons, List.map_nil, List.flatMap_cons,
      List.flatMap_nil, Bool.false_eq_true, if_true, if_false]
    decide +kernel
  have himages : IsSpaced imageFunctions := by
    unfold IsSpaced
    simp only [imageFunctions, imageScalars, imageLoads, imageStores, imageLoad, imageStore,
      oneLine, String.toList_join, String.toList_append, String.reduceToList, List.map_cons,
      List.map_nil, List.flatMap_cons, List.flatMap_nil]
    decide +kernel
  have hqueries : IsSpaced rayQueryFunctions := by
    unfold IsSpaced
    simp only [rayQueryFunctions, rayQueryStates, intersectionQuery, aligned, block,
      String.toList_join, String.toList_intercalate, String.toList_append, String.reduceToList,
      List.map_cons, List.map_nil, List.flatMap_cons, List.flatMap_nil]
    decide +kernel
  unfold functions
  refine (htextures.append himages).append ?_
  split
  · exact hqueries
  · decide

end Hlsl

end ShaderBridge
