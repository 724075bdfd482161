import Qcg.Policy.PathSet
import Qcg.Library.Encoding
import Qcg.Library.Splitting

/-!
# Canonical HTTP URLs

A URL in the form under which an approval is bound to it: the pieces of the query between `&`
and `;` are sorted and joined by `&`, everything else stays. Two URLs have the same canonical
form exactly when they differ only in the order and the separators of those pieces.
-/

namespace Qcg

namespace Policy

open Encoding Lexicographic Splitting

def isPairSeparator (c : Char) : Bool :=
  c = '&' || c = ';'

def charsLe (l r : List Char) : Bool :=
  lex (fun c d => decide (c.toNat ≤ d.toNat)) l r

def sortPairs (pairs : List (List Char)) : List (List Char) :=
  pairs.insertionSort fun l r => charsLe l r = true

/-- What stands before the fragment, and the fragment with its mark. -/
def splitFragment (url : List Char) : List Char × List Char :=
  match splitOnce '#' url with
  | none => (url, [])
  | some (before, fragment) => (before, '#' :: fragment)

def canonicalHttpUrl (url : String) : String :=
  let fragment := (splitFragment url.toList).2
  match splitOnce '?' (splitFragment url.toList).1 with
  | none => url
  | some (base, query) =>
    if query = [] then url
    else
      let pairs := sortPairs (query.splitOnP isPairSeparator)
      String.ofList (base ++ '?' :: ['&'].intercalate pairs ++ fragment)

/-- What stands before the query, the pieces of the query if there is one, and the fragment. -/
structure UrlParts where
  base : List Char
  pieces : Option (List (List Char))
  fragment : List Char

def urlParts (url : String) : UrlParts :=
  let fragment := (splitFragment url.toList).2
  match splitOnce '?' (splitFragment url.toList).1 with
  | none => ⟨(splitFragment url.toList).1, none, fragment⟩
  | some (base, query) => ⟨base, some (query.splitOnP isPairSeparator), fragment⟩

structure UrlParts.Same (l r : UrlParts) : Prop where
  base : l.base = r.base
  pieces : Option.Rel List.Perm l.pieces r.pieces
  fragment : l.fragment = r.fragment

structure UrlParts.WellFormed (parts : UrlParts) : Prop where
  base : '?' ∉ parts.base ∧ '#' ∉ parts.base
  pieces : ∀ pieces, parts.pieces = some pieces →
    pieces ≠ [] ∧ ∀ piece ∈ pieces, '&' ∉ piece ∧ '#' ∉ piece
  fragment : ∀ c ∈ parts.fragment.head?, c = '#'

theorem splitFragment_spec (url : List Char) :
    url = (splitFragment url).1 ++ (splitFragment url).2 ∧ '#' ∉ (splitFragment url).1 ∧
      ∀ c ∈ (splitFragment url).2.head?, c = '#' := by
  rw [splitFragment]
  cases hsplit : splitOnce '#' url with
  | none => simpa using splitOnce_eq_none.mp hsplit
  | some pair =>
    obtain ⟨before, fragment⟩ := pair
    obtain ⟨hurl, hfree⟩ := splitOnce_eq_some.mp hsplit
    exact ⟨hurl, hfree, by simp⟩

theorem wellFormed_urlParts (url : String) : (urlParts url).WellFormed := by
  obtain ⟨_, hhash, hfragment⟩ := splitFragment_spec url.toList
  simp only [urlParts]
  cases hsplit : splitOnce '?' (splitFragment url.toList).1 with
  | none => exact ⟨⟨splitOnce_eq_none.mp hsplit, hhash⟩, by simp, hfragment⟩
  | some pair =>
    obtain ⟨base, query⟩ := pair
    obtain ⟨hbefore, hfree⟩ := splitOnce_eq_some.mp hsplit
    rw [hbefore, List.mem_append, List.mem_cons, not_or, not_or] at hhash
    refine ⟨⟨hfree, hhash.1⟩, ?_, hfragment⟩
    rintro pieces ⟨⟩
    refine ⟨splitOnP_ne_nil _ _, fun piece hpiece => ⟨?_, ?_⟩⟩
    · intro hamp
      have hsep := (mem_of_mem_splitOnP hpiece hamp).2
      cases hsep
    · intro hmark
      exact hhash.2.2 (mem_of_mem_splitOnP hpiece hmark).1

theorem linear_charsLe : Linear charsLe :=
  linear_charLe.lex

instance : Std.Total fun l r : List Char => charsLe l r = true :=
  ⟨linear_charsLe.total⟩

instance : IsTrans (List Char) fun l r => charsLe l r = true :=
  ⟨linear_charsLe.trans⟩

theorem perm_sortPairs (pairs : List (List Char)) : (sortPairs pairs).Perm pairs :=
  List.perm_insertionSort _ _

theorem sortPairs_eq_iff {l r : List (List Char)} : sortPairs l = sortPairs r ↔ l.Perm r := by
  constructor
  · intro h
    exact (perm_sortPairs l).symm.trans (h ▸ perm_sortPairs r)
  · intro h
    refine ((perm_sortPairs l).trans (h.trans (perm_sortPairs r).symm)).eq_of_pairwise ?_
      (List.pairwise_insertionSort _ _) (List.pairwise_insertionSort _ _)
    intro a b _ _ hab hba
    exact linear_charsLe.antisymm a b hab hba

def queryText (pieces : Option (List (List Char))) : List Char :=
  pieces.elim [] fun pieces => '?' :: ['&'].intercalate (sortPairs pieces)

theorem toList_canonicalHttpUrl (url : String) :
    (canonicalHttpUrl url).toList =
      (urlParts url).base ++ queryText (urlParts url).pieces ++ (urlParts url).fragment := by
  obtain ⟨hurl, _, _⟩ := splitFragment_spec url.toList
  simp only [canonicalHttpUrl, urlParts]
  cases hsplit : splitOnce '?' (splitFragment url.toList).1 with
  | none => simpa [queryText] using hurl
  | some pair =>
    obtain ⟨base, query⟩ := pair
    obtain ⟨hbefore, _⟩ := splitOnce_eq_some.mp hsplit
    simp only [queryText, Option.elim_some]
    by_cases hempty : query = []
    · have hbase : url.toList = base ++ ['?'] ++ (splitFragment url.toList).2 := by
        rw [← hempty, ← hbefore]
        exact hurl
      rw [if_pos hempty, hempty]
      simpa [sortPairs, List.intercalate] using hbase
    · rw [if_neg hempty, String.toList_ofList]

theorem queryText_head (pieces : Option (List (List Char))) :
    ∀ c ∈ (queryText pieces).head?, decide (c ≠ '?') = false := by
  cases pieces <;> simp [queryText]

namespace UrlParts.WellFormed

variable {parts parts' : UrlParts}

section

variable (h : parts.WellFormed)

include h

theorem base_mark : ∀ c ∈ parts.base, decide (c ≠ '?') = true := by
  intro c hc
  rw [decide_eq_true_eq]
  rintro rfl
  exact h.base.1 hc

theorem fragment_head :
    ∀ c ∈ parts.fragment.head?, decide (c ≠ '#') = false := by
  intro c hc
  simp [h.fragment c hc]

theorem hash_notMem_queryText : '#' ∉ queryText parts.pieces := by
  cases hpieces : parts.pieces with
  | none => simp [queryText]
  | some pieces =>
    rw [queryText, Option.elim_some, List.mem_cons, not_or]
    refine ⟨by decide, fun hmem => ?_⟩
    rcases mem_of_mem_intercalate hmem with hamp | ⟨piece, hpiece, hc⟩
    · exact absurd hamp (by decide)
    · have hmem := (perm_sortPairs pieces).mem_iff.mp hpiece
      exact ((h.pieces pieces hpieces).2 piece hmem).2 hc

theorem before_hash :
    ∀ c ∈ parts.base ++ queryText parts.pieces, decide (c ≠ '#') = true := by
  intro c hc
  rw [decide_eq_true_eq]
  rintro rfl
  rcases List.mem_append.mp hc with hc | hc
  · exact h.base.2 hc
  · exact h.hash_notMem_queryText hc

theorem queryText_inj (h' : parts'.WellFormed) :
    queryText parts.pieces = queryText parts'.pieces ↔
      Option.Rel List.Perm parts.pieces parts'.pieces := by
  cases hl : parts.pieces with
  | none =>
    cases hr : parts'.pieces with
    | none => simp
    | some pieces' =>
      simp only [queryText, Option.elim_none, Option.elim_some]
      exact ⟨nofun, nofun⟩
  | some pieces =>
    cases hr : parts'.pieces with
    | none =>
      simp only [queryText, Option.elim_none, Option.elim_some]
      exact ⟨nofun, nofun⟩
    | some pieces' =>
      simp only [queryText, Option.elim_some, List.cons.injEq, true_and]
      have hsplit : ∀ {parts : UrlParts} {pieces}, parts.WellFormed → parts.pieces = some pieces →
          (['&'].intercalate (sortPairs pieces)).splitOn '&' = sortPairs pieces := by
        intro parts pieces hwell hpieces
        obtain ⟨hne, hfree⟩ := hwell.pieces pieces hpieces
        have hperm := perm_sortPairs pieces
        apply List.splitOn_intercalate
        · intro piece hpiece
          exact (hfree piece (hperm.mem_iff.mp hpiece)).1
        · intro hnil
          exact hne (hnil ▸ hperm).nil_eq.symm
      constructor
      · intro heq
        apply Option.Rel.some
        rw [← sortPairs_eq_iff, ← hsplit h hl, heq, hsplit h' hr]
      · intro hrel
        cases hrel with
        | some hperm => rw [sortPairs_eq_iff.mpr hperm]

end

end UrlParts.WellFormed

theorem canonicalHttpUrl_eq_iff {url url' : String} :
    canonicalHttpUrl url = canonicalHttpUrl url' ↔ (urlParts url).Same (urlParts url') := by
  have hparts := wellFormed_urlParts url
  have hparts' := wellFormed_urlParts url'
  rw [← String.toList_inj, toList_canonicalHttpUrl, toList_canonicalHttpUrl]
  generalize urlParts url = parts at hparts ⊢
  generalize urlParts url' = parts' at hparts' ⊢
  constructor
  · intro h
    -- the fragment begins at the first `#` and the query at the first `?`
    obtain ⟨hbefore, hfragment⟩ := append_inj_of_run hparts.before_hash hparts'.before_hash
      hparts.fragment_head hparts'.fragment_head h
    obtain ⟨hbase, hquery⟩ := append_inj_of_run hparts.base_mark hparts'.base_mark
      (queryText_head parts.pieces) (queryText_head parts'.pieces) hbefore
    exact ⟨hbase, (hparts.queryText_inj hparts').mp hquery, hfragment⟩
  · rintro ⟨hbase, hpieces, hfragment⟩
    rw [hbase, (hparts.queryText_inj hparts').mpr hpieces, hfragment]

end Policy

end Qcg
