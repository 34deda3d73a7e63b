import Kiln.Proofs.Path.Fold

/-!
# Kiln.Proofs.Path.Relative — the way from a directory to a path

Two normal paths go the same way from the root for a while and then part, or one of them ends
(`exists_parting`).  `Path.relative` goes up from the directory to where they part, and from there down
to the path; read against the directory, it leads back to the path.
-/

namespace Kiln.Path

open Kiln.Text

/-! ## Where two paths part -/

/-- Two lists go on differently, or one of them ends. -/
def Parted {α : Type} (as bs : List α) : Prop :=
  ∀ a, as.head? = some a → bs.head? ≠ some a

theorem exists_parting {α : Type} [DecidableEq α] (xs ys : List α) :
    ∃ shared as bs, xs = shared ++ as ∧ ys = shared ++ bs ∧ Parted as bs := by
  induction xs generalizing ys with
  | nil => exact ⟨[], [], ys, rfl, rfl, by simp [Parted]⟩
  | cons x xs ih =>
    cases ys with
    | nil => exact ⟨[], x :: xs, [], rfl, rfl, by simp [Parted]⟩
    | cons y ys =>
      by_cases hxy : x = y
      · subst hxy
        obtain ⟨shared, as, bs, rfl, rfl, hparted⟩ := ih ys
        exact ⟨x :: shared, as, bs, rfl, rfl, hparted⟩
      · exact ⟨[], x :: xs, y :: ys, rfl, rfl, by simp [Parted, Ne.symm hxy]⟩

theorem commonLength_of_parted {α : Type} [DecidableEq α] {as bs : List α} (h : Parted as bs)
    (shared : List α) : commonLength (shared ++ as) (shared ++ bs) = shared.length := by
  induction shared with
  | nil =>
    cases as with
    | nil => rfl
    | cons a as =>
      cases bs with
      | nil => rfl
      | cons b bs =>
        have hab : a ≠ b := fun heq => h a rfl (by simp [heq])
        exact if_neg hab
  | cons x shared ih =>
    rw [List.cons_append, List.cons_append, commonLength, if_pos rfl, ih]
    rfl

theorem Parted.map {α β : Type} {f : α → β} (hf : Function.Injective f) {as bs : List α}
    (h : Parted as bs) : Parted (as.map f) (bs.map f) := by
  intro c hc hc'
  rw [List.head?_map, Option.map_eq_some_iff] at hc hc'
  obtain ⟨a, ha, rfl⟩ := hc
  obtain ⟨b, hb, hba⟩ := hc'
  exact h a ha (hf hba ▸ hb)

/-! ## Up and down -/

theorem components_of_names {ns : List String} (h : ∀ name ∈ ns, IsName name) :
    components ("/" ++ Pieces.join "/" ns) = .root :: ns.map .name := by
  have habsolute : isAbsolute ("/" ++ Pieces.join "/" ns) = true := by simp [isAbsolute, separator]
  have hsteps := steps_slash (Pieces.join "/" ns)
  rw [steps_join_names h, steps] at hsteps
  unfold components
  rw [if_pos habsolute, hsteps]
  have hnames : ∀ c ∈ ns.map Component.name, decide (c ≠ .here) = true := by simp
  rw [List.filter_eq_self.mpr hnames]

/-- As many steps up as there are names leave what was before them. -/
theorem foldNames_up (stack above : List String) :
    foldNames (above ++ stack) (List.replicate above.length .up) = stack := by
  induction above with
  | nil => rfl
  | cons name above ih => exact ih

/-- The steps up, and the names that are gone down, in words. -/
def wayTexts (up : Nat) (down : List String) : List String :=
  List.replicate up ".." ++ down

theorem plain_of_wayTexts {up : Nat} {down : List String} (h : ∀ name ∈ down, IsName name) :
    ∀ t ∈ wayTexts up down, t ≠ "" ∧ ∀ c ∈ t.toList, isSeparator c = false := by
  intro t ht
  rcases List.mem_append.mp ht with ht | ht
  · have hdots : "..".toList.all (fun c => !isSeparator c) = true := by decide
    rw [List.eq_of_mem_replicate ht]
    exact ⟨by decide, by simpa using hdots⟩
  · exact ⟨(h t ht).ne_empty, (h t ht).plain⟩

theorem map_text_way (up : Nat) (down : List String) :
    (List.replicate up Component.up ++ down.map Component.name).map Component.text =
      wayTexts up down := by
  rw [List.map_append, List.map_replicate, List.map_map]
  have htext : Component.text ∘ Component.name = id := rfl
  rw [htext, List.map_id]
  rfl

theorem ofComponents_way (up : Nat) (down : List String) :
    ofComponents (List.replicate up .up ++ down.map Component.name) =
      Pieces.join "/" (wayTexts up down) := by
  rw [← map_text_way]
  cases up with
  | zero => cases down <;> rfl
  | succ up => rfl

theorem steps_way {up : Nat} {down : List String} (h : ∀ name ∈ down, IsName name) :
    steps (Pieces.join "/" (wayTexts up down)) =
      List.replicate up Component.up ++ down.map .name := by
  have hup : Component.ofPiece? ".." = some .up := rfl
  rw [steps_join_texts fun t ht => (plain_of_wayTexts h t ht).2, wayTexts, List.filterMap_append,
    filterMap_names h, List.filterMap_replicate, hup]

/-! ## The relative path -/

section

variable {shared rest above : List String}

theorem relative_of_names (hshared : ∀ name ∈ shared, IsName name)
    (hrest : ∀ name ∈ rest, IsName name) (habove : ∀ name ∈ above, IsName name)
    (hparted : Parted rest above) :
    relative ("/" ++ Pieces.join "/" (shared ++ rest)) ("/" ++ Pieces.join "/" (shared ++ above)) =
      if shared = [] then "/" ++ Pieces.join "/" (shared ++ rest)
      else if above = [] ∧ rest = [] then "."
      else Pieces.join "/" (wayTexts above.length rest) := by
  have hinjective : Function.Injective Component.name := fun _ _ h => Component.name.inj h
  have htarget := components_of_names (List.forall_mem_append.mpr ⟨hshared, hrest⟩)
  have hstart := components_of_names (List.forall_mem_append.mpr ⟨hshared, habove⟩)
  rw [List.map_append, ← List.cons_append] at htarget hstart
  unfold relative
  dsimp only
  rw [htarget, hstart, commonLength_of_parted (hparted.map hinjective)]
  by_cases hnone : shared = []
  · simp [hnone]
  have hlength : 0 < shared.length := List.length_pos_iff.mpr hnone
  rw [if_neg hnone, if_neg (by simp; omega)]
  rw [List.drop_left, List.length_append, Nat.add_sub_cancel_left, List.length_map,
    ofComponents_way]
  by_cases hnothing : above = [] ∧ rest = []
  · obtain ⟨rfl, rfl⟩ := hnothing
    rfl
  · have hsome : (List.replicate above.length Component.up ++ rest.map Component.name).isEmpty = false := by
      rw [List.isEmpty_eq_false_iff]
      simpa using hnothing
    rw [if_neg hnothing, hsome]
    rfl

theorem isAbsolute_relative (hshared : ∀ name ∈ shared, IsName name)
    (hrest : ∀ name ∈ rest, IsName name) (habove : ∀ name ∈ above, IsName name)
    (hparted : Parted rest above) :
    isAbsolute (relative ("/" ++ Pieces.join "/" (shared ++ rest))
      ("/" ++ Pieces.join "/" (shared ++ above))) = false ↔ shared ≠ [] := by
  rw [relative_of_names hshared hrest habove hparted]
  by_cases hnone : shared = []
  · simp [hnone, isAbsolute, separator]
  · rw [if_neg hnone]
    refine iff_of_true ?_ hnone
    split
    · decide
    · exact isAbsolute_join_texts (plain_of_wayTexts hrest)

/-- Up from the directory to where the paths part, and down to the path. -/
theorem absolute_relative (hshared : ∀ name ∈ shared, IsName name)
    (hrest : ∀ name ∈ rest, IsName name) (habove : ∀ name ∈ above, IsName name)
    (hparted : Parted rest above) :
    absolute ("/" ++ Pieces.join "/" (shared ++ above))
      (relative ("/" ++ Pieces.join "/" (shared ++ rest))
        ("/" ++ Pieces.join "/" (shared ++ above))) =
      "/" ++ Pieces.join "/" (shared ++ rest) := by
  have htarget := List.forall_mem_append.mpr ⟨hshared, hrest⟩
  have hstart := List.forall_mem_append.mpr ⟨hshared, habove⟩
  have hnormal : Normal ("/" ++ Pieces.join "/" (shared ++ above)) := ⟨_, hstart, rfl⟩
  have hsame := isAbsolute_relative hshared hrest habove hparted
  rw [relative_of_names hshared hrest habove hparted] at hsame ⊢
  by_cases hnone : shared = []
  · rw [if_pos hnone]
    exact Normal.absolute_self ⟨_, htarget, rfl⟩ _
  have hrelative := hsame.mpr hnone
  rw [absolute_eq hnormal.isAbsolute, names_join _ hrelative, names_of_names hstart,
    List.reverse_append]
  rw [if_neg hnone]
  congr 2
  split
  · rename_i hnothing
    obtain ⟨rfl, rfl⟩ := hnothing
    have hhere : steps "." = [.here] := by decide
    rw [hhere]
    simp [foldNames]
  · have hup := foldNames_up shared.reverse above.reverse
    rw [List.length_reverse] at hup
    rw [steps_way hrest, foldNames_append, hup, foldNames_names]
    simp

end

/-- The path from one normal path to another leads back to it.  It is relative just if the two share
at least one name below the root, and then it goes up once for every name the directory has behind the
last one they share, and down the names that are left of the path. -/
theorem relative_leads_back {path base : String} (hpath : Normal path) (hbase : Normal base) :
    absolute base (relative path base) = path ∧
    ∃ shared rest above, names path = shared ++ rest ∧ names base = shared ++ above ∧
      Parted rest above ∧
      (isAbsolute (relative path base) = false ↔ shared ≠ []) ∧
      (shared ≠ [] → relative path base =
        if above = [] ∧ rest = [] then "."
        else Pieces.join "/" (List.replicate above.length ".." ++ rest)) := by
  obtain ⟨ns, hns, rfl⟩ := hpath
  obtain ⟨bs, hbs, rfl⟩ := hbase
  obtain ⟨shared, rest, above, rfl, rfl, hparted⟩ := exists_parting ns bs
  obtain ⟨hshared, hrest⟩ := List.forall_mem_append.mp hns
  obtain ⟨-, habove⟩ := List.forall_mem_append.mp hbs
  refine ⟨absolute_relative hshared hrest habove hparted, shared, rest, above, names_of_names hns,
    names_of_names hbs, hparted, isAbsolute_relative hshared hrest habove hparted, fun hne => ?_⟩
  rw [relative_of_names hshared hrest habove hparted, if_neg hne]
  rfl

/-- Two names up and two names down. -/
theorem relative_leads_back_aside :
    Normal "/work/other/b" ∧ Normal "/work/proj/src" ∧
    relative "/work/other/b" "/work/proj/src" = "../../other/b" ∧
    absolute "/work/proj/src" "../../other/b" = "/work/other/b" := by
  have hpath : Normal "/work/other/b" := ⟨["work", "other", "b"], by decide, rfl⟩
  have hbase : Normal "/work/proj/src" := ⟨["work", "proj", "src"], by decide, rfl⟩
  have hway : relative "/work/other/b" "/work/proj/src" = "../../other/b" := by decide +kernel
  obtain ⟨hback, -⟩ := relative_leads_back hpath hbase
  rw [hway] at hback
  exact ⟨hpath, hbase, hway, hback⟩

end Kiln.Path
