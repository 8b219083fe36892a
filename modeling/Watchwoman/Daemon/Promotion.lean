import Watchwoman.Daemon.Registration

/-!
# Promoting a jj-events root

A promotion crawls while the watch is attached and the mode lock keeps the event loop away, so what
changes during the crawl has its events behind it. `walk` checks that a directory is not a link
before it enters it, but `read_dir` and `symlink_metadata` follow a link that takes its place.
-/

namespace Watchwoman.Watcher

open Transition LastWrite

/-- **Promotion.** In every run of a root that is registered in jj-events mode in which no path is
found through a link unless an event about it is on the way, once the root was promoted the live
entries are the visible paths of the disk whenever every event was applied. -/
theorem promotion_converges {σ₀ σ : State} (hstart : Start σ₀) (hjj : σ₀.root.jjEvents = true)
    (hrun : Run DirectStep σ₀ σ) (hpromoted : σ.root.jjEvents = false) (hdrained : Drained σ) :
    Converged σ := by
  have hpreserved : ∀ s s', Inv s ∧ (s.stage = .attached ∨ s.root.jjEvents = true) →
      DirectStep s s' → Inv s' ∧ (s'.stage = .attached ∨ s'.root.jjEvents = true) := by
    rintro s s' ⟨h, hmode⟩ hs
    constructor
    · refine h.step hs ?_
      rintro ⟨hstage, hf⟩
      rcases hmode with ha | hj
      · rcases hstage with hstage | hstage <;> rw [ha] at hstage <;> cases hstage
      · rw [hf] at hj
        cases hj
    · obtain ⟨look, hstep, -⟩ := hs
      obtain ⟨hstays, hsame | ⟨ha, -⟩⟩ := hstep.mode
      · rcases hmode with ha | hj
        · exact .inl (hstays ha)
        · exact .inr (hsame.trans hj)
      · exact .inl ha
  obtain ⟨hinv, hattached | hj⟩ := hrun.preserves hpreserved ⟨Inv.start hstart, .inr hjj⟩
  · exact hinv.converged hattached hpromoted hdrained
  · rw [hpromoted] at hj
    cases hj

/-! ## A directory that is removed during the crawl -/

/-- A root with the empty directory `x`. -/
def dirDisk : Disk := diskOf [([], someKind .dir), ([[0x78]], someKind .dir)] (by decide)

theorem reports_dirRemoved : Reports [[0x72]] dirDisk emptyDisk [about [0x78] .remove] :=
  reports_about (by simp) (fun _ => eq_of_onDisk_pair)
    (fun p hon => absurd hon (not_onDisk_emptyDisk p)) (fun _ => not_onDisk_emptyDisk _)

/-- What the crawl of the root finds before the directory is removed. -/
def dirFound : List ScanEntry := [([[0x78]], someKind .dir, none)]

/-- The root after the promotion, with the removal still to come. -/
def promotedRoot : Root :=
  ((Root.new [[0x72]] .default true 1 1700000000 42).seed []).promoteToFull dirFound

/-- The root once the event loop has heard of the removal. -/
def promoted : State :=
  ⟨emptyDisk, .attached, (promotedRoot.applyChanges 0 [.remove [[0x78]]]).1, none, [], .waiting []⟩

/-- The directory is removed while the crawl is in it. -/
theorem run_promoted : Run DirectStep (unregistered true dirDisk) promoted := by
  have hdirect : ∀ p ∈ some [[0x78]], dirDisk.Direct p := by
    rintro p ⟨rfl⟩
    exact direct_name ⟨_, rfl, rfl⟩ _
  have hempty : ∀ n, n ∈ ([] : List Name) ↔ emptyDisk.lstat [[0x78], n] ≠ none := by
    intro n
    simp [emptyDisk, diskOf, List.lookup_cons]
  have happly := @Step.apply 0
    ⟨emptyDisk, .attached, promotedRoot, none, [], .collecting false [] [.remove [[0x78]]]⟩ _ _ rfl
  rw [if_neg (by simp)] at happly
  have h₀ : Run DirectStep (unregistered true dirDisk) (unregistered true dirDisk) := .refl
  have h₁ := h₀.tail ⟨_, .seedEmpty rfl rfl, by simp⟩
  have h₂ := h₁.tail ⟨_, .attach rfl, by simp⟩
  have h₃ := h₂.tail ⟨_, .beginPromotion rfl rfl rfl rfl, by simp⟩
  have h₄ := h₃.tail ⟨_, .crawl rfl (.readDir _ lstat_pair), by simp⟩
  have h₅ := h₄.tail
    ⟨_, .crawl rfl (.entry none (by decide) rfl), fun p hp _ _ => hdirect p hp⟩
  have h₆ := h₅.tail ⟨_, .mutateWatched emptyDisk _ rfl reports_dirRemoved, by simp⟩
  have h₇ := h₆.tail ⟨_, .receive rfl rfl (by decide), by simp⟩
  have h₈ := h₇.tail ⟨_, .crawl rfl (.readDir _ hempty), by simp⟩
  have h₉ := h₈.tail ⟨_, .crawl rfl .done, by simp⟩
  have h₁₀ := h₉.tail ⟨_, .crawl rfl .done, by simp⟩
  have h₁₁ := h₁₀.tail ⟨_, .promote rfl rfl, by simp⟩
  have h₁₂ := h₁₁.tail ⟨_, .lock rfl (by simp) rfl, by simp⟩
  have h₁₃ := h₁₂.tail ⟨_, step_collect (by simp) rfl, by simp [statted, about]⟩
  have h₁₄ := h₁₃.tail ⟨_, step_collect (by simp) rfl, by simp [statted]⟩
  exact h₁₄.tail ⟨_, happly, by simp⟩

/-- The crawl has found what is gone. -/
theorem promotion_converges_promoted :
    promotedRoot.tree.Live [[0x78]] ∧ promoted.root.jjEvents = false ∧ Converged promoted :=
  ⟨⟨_, rfl, rfl⟩, rfl, promotion_converges (start_unregistered true dirDisk) rfl run_promoted rfl
    ⟨rfl, rfl⟩⟩

/-! ## A directory that becomes a link -/

/-- The directory replaced by a link to a directory elsewhere that has a file `c`. -/
def linkDisk : Disk :=
  diskOf [([], someKind .dir), ([[0x78]], someKind .symlink), ([[0x78], [0x63]], someKind .file)]
    (by decide)

theorem eq_of_onDisk_linkDisk {p : RelPath} (h : linkDisk.OnDisk p) : p = [[0x78]] := by
  obtain ⟨hne, hmem⟩ := mem_of_onDisk h
  simp only [List.map_cons, List.map_nil, List.mem_cons, List.not_mem_nil, or_false] at hmem
  rcases hmem with rfl | rfl | rfl
  · exact absurd rfl hne
  · rfl
  · obtain ⟨md, hmd, hkind⟩ := h.above [[0x78]] (by decide) (by decide)
    obtain rfl := Option.some.inj hmd
    cases hkind

/-- The root after a crawl that went through the link. -/
def linkRoot : Root :=
  ((Root.new [[0x72]] .default true 1 1700000000 42).seed []).promoteToFull
    [([[0x78]], someKind .dir, none), ([[0x78], [0x63]], someKind .file, none)]

theorem run_linkRoot : Run (fun s s' => ∃ look, Step look s s') (unregistered true dirDisk)
    ⟨linkDisk, .attached, linkRoot, none, [about [0x78] .remove, about [0x78] .create],
      .waiting []⟩ := by
  have hlink : ∀ n, n ∈ [[0x63]] ↔ linkDisk.lstat [[0x78], n] ≠ none := by
    intro n
    by_cases hn : n = [0x63]
    · simp [linkDisk, diskOf, List.lookup_cons, hn]
    · simp [linkDisk, diskOf, List.lookup_cons, hn, beq_eq_false_iff_ne.mpr hn]
  have hcreated : Reports [[0x72]] emptyDisk linkDisk [about [0x78] .create] :=
    reports_about (by simp) (fun p hon => absurd hon (not_onDisk_emptyDisk p))
      (fun _ => eq_of_onDisk_linkDisk) (by simp)
  exact .tail (.tail (.tail (.tail (.tail (.tail (.tail (.tail (.tail (.tail (.tail (.single
    ⟨_, .seedEmpty rfl rfl⟩)
    ⟨_, .attach rfl⟩)
    ⟨_, .beginPromotion rfl rfl rfl rfl⟩)
    ⟨_, .crawl rfl (.readDir _ lstat_pair)⟩)
    ⟨_, .crawl rfl (.entry none (by decide) rfl)⟩)
    ⟨_, .mutateWatched emptyDisk [about [0x78] .remove] rfl reports_dirRemoved⟩)
    ⟨_, .mutateWatched linkDisk [about [0x78] .create] rfl hcreated⟩)
    ⟨_, .crawl rfl (.readDir _ hlink)⟩)
    ⟨_, .crawl rfl (.entry none (by decide) rfl)⟩)
    ⟨_, .crawl rfl .done⟩)
    ⟨_, .crawl rfl .done⟩)
    ⟨_, .promote rfl rfl⟩

/-- What the event loop makes of the three events about `x`, once `x` is gone. -/
def removedThrice : List PathChange := [.remove [[0x78]], .remove [[0x78]], .remove [[0x78]]]

/-- The event loop hears of the directory, of the link and of its removal. -/
theorem run_linkRemoved : Run (fun s s' => ∃ look, Step look s s')
    ⟨linkDisk, .attached, linkRoot, none, [about [0x78] .remove, about [0x78] .create],
      .waiting []⟩
    ⟨emptyDisk, .attached, (linkRoot.applyChanges 0 removedThrice).1, none, [], .waiting []⟩ := by
  have hreports : Reports [[0x72]] linkDisk emptyDisk [about [0x78] .remove] :=
    reports_about (by simp) (fun _ => eq_of_onDisk_linkDisk)
      (fun p hon => absurd hon (not_onDisk_emptyDisk p)) (fun _ => not_onDisk_emptyDisk _)
  have happly := @Step.apply 0
    ⟨emptyDisk, .attached, linkRoot, none, [], .collecting false [] removedThrice⟩ _ _ rfl
  rw [if_neg (by simp [removedThrice])] at happly
  exact .tail (.tail (.tail (.tail (.tail (.tail (.tail (.tail (.tail (.tail (.tail (.single
    ⟨_, .mutateWatched emptyDisk [about [0x78] .remove] rfl hreports⟩)
    ⟨_, .receive rfl rfl (by decide)⟩)
    ⟨_, .receive rfl rfl (by decide)⟩)
    ⟨_, .receive rfl rfl (by decide)⟩)
    ⟨_, .lock rfl (by simp) rfl⟩)
    ⟨_, step_collect (by simp) rfl⟩)
    ⟨_, step_collect (by simp) rfl⟩)
    ⟨_, step_collect (by simp) rfl⟩)
    ⟨_, step_collect (by simp) rfl⟩)
    ⟨_, step_collect (by simp) rfl⟩)
    ⟨_, step_collect (by simp) rfl⟩)
    ⟨_, happly⟩

/-- The directory is replaced by a link between its `symlink_metadata` and its `read_dir`, and the
link is removed afterwards: the file that the crawl found through it stays in the tree. -/
theorem linked_directory_stays :
    Start (unregistered true dirDisk) ∧
    ∃ σ, Run (fun s s' => ∃ look, Step look s s') (unregistered true dirDisk) σ ∧
      σ.root.jjEvents = false ∧ Drained σ ∧ ¬ Converged σ := by
  refine ⟨start_unregistered _ _, _, run_linkRoot.trans run_linkRemoved, rfl, ⟨rfl, rfl⟩, ?_⟩
  intro h
  have hlive : liveAt (linkRoot.applyChanges 0 removedThrice).1.tree [[0x78], [0x63]] = true := by
    decide
  exact not_onDisk_emptyDisk _ ((h [[0x78], [0x63]]).mp (live_iff.mpr hlive)).1

end Watchwoman.Watcher
