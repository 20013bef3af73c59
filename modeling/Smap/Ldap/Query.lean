import Smap.Ldap.Reading
import Smap.WordSplit.Parts

/-! # The filter of an LDAP query

What `mod_ldap_query` (`modules/ldap/ldap.c`) passes to `ldap_search_ext`.

* **Source.** `queryFilter` expands the template in the environment `inenv`; the values are put in as they are.
* **Result.** `query_filter_iff`: the text stands for the template's filter, with the client's strings in its
  values, exactly if none of these strings has a parenthesis, an asterisk or a backslash, the values are UTF-8,
  and no substring assertion loses all its parts. -/

namespace Smap.Ldap

open WordSplit (Part parts partsText firstWord unsplitFlags varValue)
open Filters (Parses Unescapes)

/-! ### The source -/

/-- `inenv` -/
def inenv (map key : Bytes) : List (Option Bytes) := [some (str "map"), some map, some (str "key"), some key, none]

/-- `ws.ws_wordv[0]` behind the call of `wordsplit`. -/
def queryFilter (filter map key : Bytes) : Option (Option (Option Bytes)) :=
  firstWord (unsplitFlags true) (inenv map key) filter

/-! ### The values of references -/

/-- The value of a variable; an undefined one is empty. -/
def value (map key name : Bytes) : Bytes :=
  if str "map" = name then map else if str "key" = name then key else []

theorem findEnv_inenv (map key name : Bytes) :
    WordSplit.findEnv (unsplitFlags true) { env := inenv map key } name =
      some (if str "map" = name then some map else if str "key" = name then some key else none) := by
  unfold WordSplit.findEnv
  rw [if_neg (by decide), if_pos (by decide)]
  simp only [inenv, WordSplit.findEnvKv, beq_iff_eq]
  split_ifs <;> rfl

theorem varValue_inenv (map key name : Bytes) :
    varValue (unsplitFlags true) { env := inenv map key } name = some (.ok (some (value map key name))) := by
  unfold varValue value
  rw [findEnv_inenv]
  by_cases hm : str "map" = name
  · rw [if_pos hm, if_pos hm]
    rfl
  · rw [if_neg hm, if_neg hm]
    by_cases hk : str "key" = name
    · rw [if_pos hk, if_pos hk]
      rfl
    · rw [if_neg hk, if_neg hk]
      rfl

theorem zero_not_mem_value {map key : Bytes} (hmap : 0 ∉ map) (hkey : 0 ∉ key) (name : Bytes) :
    0 ∉ value map key name := by
  unfold value
  split_ifs
  · exact hmap
  · exact hkey
  · exact List.not_mem_nil

theorem queryFilter_parts {template map key : Bytes} (htemplate : 0 ∉ template) (hmap : 0 ∉ map)
    (hkey : 0 ∉ key) {ps : List Part} (hps : parts template = some ps) (hne : partsText (value map key) ps ≠ []) :
    queryFilter template map key = some (some (some (partsText (value map key) ps))) := by
  obtain ⟨w, hw, htext⟩ := WordSplit.firstWord_parts true (inenv map key) htemplate hps
    (fun name _ => varValue_inenv map key name) fun name _ => zero_not_mem_value hmap hkey name
  unfold queryFilter
  rw [hw]
  cases w with
  | none => exact absurd htext.symm hne
  | some w => rw [← htext]; rfl

/-! ### Filters -/

theorem byte_text (value : Bytes → Bytes) (c : UInt8) : (Part.byte c).text value = [c] := rfl

theorem harmless_iff {map key : Bytes} (hmap : 0 ∉ map) (hkey : 0 ∉ key) (E : Filters.Filter (List Part)) :
    Filters.Harmless Part.byte (Part.text (value map key)) E ↔
      ∀ w ∈ E.values, ∀ name, Part.ref name ∈ w → ∀ c ∈ value map key name, c ∉ str "()*\\" := by
  have hchar : ∀ c : UInt8, c ≠ 0 → (c ∉ str "()*\\" ↔ Filters.isDelim c = false ∧ 92 ≠ c) := by decide +kernel
  constructor
  · intro h w hw name hname c hc
    obtain ⟨hbare, hesc⟩ := h w hw (.ref name) hname fun _ heq => nomatch heq
    have hc0 : c ≠ 0 := fun h0 => zero_not_mem_value hmap hkey name (h0 ▸ hc)
    exact (hchar c hc0).mpr ⟨hbare c hc, fun h92 => hesc (h92 ▸ hc)⟩
  · intro h w hw a ha href
    cases a with
    | byte c => exact absurd rfl (href c)
    | ref name =>
        have hboth : ∀ c ∈ value map key name, Filters.isDelim c = false ∧ 92 ≠ c := fun c hc =>
          (hchar c fun h0 => zero_not_mem_value hmap hkey name (h0 ▸ hc)).mp (h w hw name ha c hc)
        exact ⟨fun c hc => (hboth c hc).1, fun hc => (hboth 92 hc).2 rfl⟩

/-- **When client data stays in the values of a filter.** -/
theorem query_filter_iff {template map key : Bytes} (htemplate : 0 ∉ template) (hmap : 0 ∉ map) (hkey : 0 ∉ key)
    {E D : Filters.Filter (List Part)} (hE : parts template = some (E.render Part.byte))
    (hD : E.Rel (Unescapes Part.byte) D) :
    ∃ text, queryFilter template map key = some (some (some text)) ∧
      ((∀ F, Parses text F ↔ F = D.map (partsText (value map key))) ↔
        (∀ w ∈ E.values, ∀ name, Part.ref name ∈ w → ∀ c ∈ value map key name, c ∉ str "()*\\") ∧
          (∀ w ∈ E.values, Filters.Utf8 (partsText (value map key) w)) ∧
          (E.map (partsText (value map key))).Proper) := by
  have hrender : partsText (value map key) (E.render Part.byte) = (E.map (partsText (value map key))).render id :=
    E.render_fill (byte_text (value map key))
  obtain ⟨s, hs⟩ := (E.map (partsText (value map key))).render_open
  refine ⟨partsText (value map key) (E.render Part.byte), ?_, ?_⟩
  · apply queryFilter_parts htemplate hmap hkey hE
    rw [hrender, hs]
    exact List.cons_ne_nil _ _
  · have hiff := Filters.parses_fill_iff (byte_text (value map key)) hD
    rw [harmless_iff hmap hkey] at hiff
    refine Iff.trans ⟨fun h => (h _).mpr rfl, fun h F => ⟨fun hF => Filters.parses_unique hF h, ?_⟩⟩ hiff
    rintro rfl
    exact h

/-- `(&(objectClass=posixAccount)(uid=$key))`, with a value for the user. -/
def account {α : Type} (lit : UInt8 → α) (user : List α) : Filters.Filter (List α) :=
  .and (.more
    (.item (.simple ⟨str "objectClass", by decide +kernel⟩ .equal ((str "posixAccount").map lit)))
    (.one (.item (.simple ⟨str "uid", by decide +kernel⟩ .equal user))))

/-- `(&(objectClass=posixAccount)(uid=*))` -/
def anyAccount : Filters.Filter Bytes :=
  .and (.more
    (.item (.simple ⟨str "objectClass", by decide +kernel⟩ .equal (str "posixAccount")))
    (.one (.item (.present ⟨str "uid", by decide +kernel⟩))))

theorem account_rel : (account Part.byte [.ref (str "key")]).Rel (Unescapes Part.byte)
    (account Part.byte [.ref (str "key")]) := by
  have hplain : ∀ w ∈ [(str "posixAccount").map Part.byte, [.ref (str "key")]], ∀ a ∈ w,
      (∀ c, Filters.isDelim c = true → a ≠ Part.byte c) ∧ a ≠ Part.byte 92 := by decide +kernel
  exact ⟨rfl, .cons (.refl (hplain _ (by simp))) (.cons (.refl (hplain _ (by simp))) .nil)⟩

/-- The key `bob`. -/
theorem query_filter_bob : ∃ text,
    queryFilter (str "(&(objectClass=posixAccount)(uid=$key))") (str "m") (str "bob") = some (some (some text)) ∧
      ∀ F, Parses text F ↔ F = account id (str "bob") := by
  have hmap : 0 ∉ str "m" := by decide
  have hkey : 0 ∉ str "bob" := by decide
  have htemplate : 0 ∉ str "(&(objectClass=posixAccount)(uid=$key))" := by decide
  obtain ⟨text, htext, hiff⟩ := query_filter_iff htemplate hmap hkey rfl account_rel
  refine ⟨text, htext, hiff.mpr ⟨fun w hw name hname => ?_, fun w hw => ?_, trivial, trivial⟩⟩
  · have hkey : name = str "key" := by
      rcases List.mem_cons.mp hw with rfl | hw
      · obtain ⟨c, -, hc⟩ := List.mem_map.mp hname
        cases hc
      · rw [List.mem_singleton.mp hw, List.mem_singleton] at hname
        exact Part.ref.inj hname
    rw [hkey]
    decide +kernel
  · rcases List.mem_cons.mp hw with rfl | hw
    · exact ⟨"posixAccount".toList, by decide +kernel⟩
    · rw [List.mem_singleton.mp hw]
      exact ⟨"bob".toList, by decide +kernel⟩

/-- The key `*` makes the comparison a test for presence. -/
theorem query_filter_star :
    queryFilter (str "(&(objectClass=posixAccount)(uid=$key))") (str "m") (str "*") =
        some (some (some (str "(&(objectClass=posixAccount)(uid=*))"))) ∧
      Parses (str "(&(objectClass=posixAccount)(uid=*))") anyAccount ∧
      ¬ Parses (str "(&(objectClass=posixAccount)(uid=*))") (account id (str "*")) := by
  have hmap : 0 ∉ str "m" := by decide
  have hkey : 0 ∉ str "*" := by decide
  have htemplate : 0 ∉ str "(&(objectClass=posixAccount)(uid=$key))" := by decide
  have hplain : ∀ a ∈ str "posixAccount", (∀ c, Filters.isDelim c = true → a ≠ id c) ∧ a ≠ id 92 := by
    decide +kernel
  have hpresent : Parses (str "(&(objectClass=posixAccount)(uid=*))") anyAccount := by
    refine ⟨anyAccount, by decide +kernel, ⟨trivial, trivial⟩, fun w hw => ?_, rfl, .cons (.refl hplain) .nil⟩
    rw [List.mem_singleton.mp hw]
    exact ⟨"posixAccount".toList, by decide +kernel⟩
  refine ⟨?_, hpresent, fun h => ?_⟩
  · have hps : parts (str "(&(objectClass=posixAccount)(uid=$key))") =
        some ((account Part.byte [.ref (str "key")]).render .byte) := rfl
    exact queryFilter_parts htemplate hmap hkey hps (by decide +kernel)
  · cases Filters.parses_unique hpresent h

end Smap.Ldap
