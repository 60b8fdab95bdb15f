import ObjcDyld.SlideInfo.RebasedPages

/-!
# The slide info round trip

The builder writes slide info and the loader slides the pages by it.  When every
page can be encoded, the pages come back slid, unless the builder reports an
error or looks for the last of no extras.
-/

namespace ObjcDyld.SlideInfo

open Loops

variable {w : ℕ}

/-- The loader turns what the builder wrote into the pages expected. -/
def RoundTrips (version : Version w) (layout : ArchLayout) (sizeInUse : ℕ) (slide : BitVec w)
    (expected : DataPage → ℕ → BitVec w) (pages : List DataPage) : Prop :=
  ∃ written info rebased,
    writeSlideInfo version layout sizeInUse pages = .ok (written, info) ∧
      rebaseDataPages version info slide written = .ok rebased ∧
      List.Forall₂ (fun data page => Restored version data (expected data) page) pages rebased

/-- The builder reports an error. -/
def Reports (version : Version w) (layout : ArchLayout) (sizeInUse : ℕ) (pages : List DataPage) :
    Prop :=
  ∃ failure, writeSlideInfo version layout sizeInUse pages = .error failure ∧
    failure.reported = true

/-- No page without rebases comes at a time when its start marks the last of no extras. -/
def MarksExtras (version : Version w) (layout : ArchLayout) (pages : List DataPage) : Prop :=
  version.attributes.noRebase &&& version.attributes.extra = 0 ∨
    EmptyAfterExtras version (Info.fixed layout) pages

variable {version : Version w} {layout : ArchLayout} {sizeInUse : ℕ} {slide : BitVec w}
  {final : DataPage → ℕ → BitVec w} {pages : List DataPage}

theorem RoundTrips.expected_iff (trips : RoundTrips version layout sizeInUse slide final pages)
    (expected : DataPage → ℕ → BitVec w) :
    RoundTrips version layout sizeInUse slide expected pages ↔
      ∀ data ∈ pages, ∀ i, data.bitmap i = true → expected data i = final data i := by
  obtain ⟨written, info, rebased, run, load, restored⟩ := trips
  constructor
  · rintro ⟨written', info', rebased', run', load', restored'⟩
    obtain ⟨rfl, rfl⟩ := Prod.mk.inj (Except.ok.inj (run.symm.trans run'))
    obtain rfl := Except.ok.inj (load.symm.trans load')
    clear run run' load load'
    induction restored with
    | nil => simp
    | cons first rest ih =>
        obtain ⟨first', rest'⟩ := List.forall₂_cons.mp restored'
        intro data mem i set
        rcases List.mem_cons.mp mem with rfl | mem
        · exact (first'.locations i set).symm.trans (first.locations i set)
        · exact ih rest' data mem i set
  · intro same
    refine ⟨written, info, rebased, run, load, ?_⟩
    clear run load
    induction restored with
    | nil => exact .nil
    | cons first rest ih =>
        refine .cons ⟨fun i set => ?_, first.others⟩
          (ih fun data mem => same data (List.mem_cons_of_mem _ mem))
        rw [first.locations i set, same _ List.mem_cons_self i set]

theorem writeSlideInfo_spec {bits : ℕ} (lawful : version.attributes.Lawful bits)
    (encodable : ∀ data ∈ pages,
      Encodable version (Info.fixed layout) slide data (final data))
    (short : pages.length ≤ 2 ^ 20) :
    (RoundTrips version layout sizeInUse slide final pages ∧ MarksExtras version layout pages) ∨
      (Reports version layout sizeInUse pages ∧ MarksExtras version layout pages ∧
        ((∃ data ∈ pages, NeedsExtras version (Info.fixed layout) data) ∨
          slideInfoBufferSizeAllocated layout sizeInUse <
            align (sizeofSlideInfo + pages.length * 2) layout.sharedRegionAlignP2)) ∨
      (writeSlideInfo version layout sizeInUse pages = .error .emptyBack ∧
        ¬ MarksExtras version layout pages) := by
  have outcome := addAllPageStarts_spec lawful encodable
    (show Marked version.attributes [] from fun back none => nomatch none)
  have fails : ∀ failure, addAllPageStarts version (Info.fixed layout) pages [] = .error failure →
      writeSlideInfo version layout sizeInUse pages = .error failure := by
    intro failure run
    simp only [writeSlideInfo, run, error_bind]
  generalize run : addAllPageStarts version (Info.fixed layout) pages [] = result at outcome
  cases outcome with
  | @written written starts extras all unused after =>
      have marks : MarksExtras version layout pages :=
        after.imp_right fun either => either.resolve_left fun some => some rfl
      by_cases large : align (sizeofSlideInfo + starts.length * 2 + extras.length * 2)
          layout.sharedRegionAlignP2 > slideInfoBufferSizeAllocated layout sizeInUse
      · refine Or.inr (Or.inl ⟨⟨.bufferOverflow, ?_, rfl⟩, marks, ?_⟩)
        · simp only [writeSlideInfo, run, ok_bind, if_pos large]
        · by_cases needs : ∃ data ∈ pages, NeedsExtras version (Info.fixed layout) data
          · exact Or.inl needs
          · have none : extras = [] :=
              unused.mpr ⟨rfl, fun data mem more => needs ⟨data, mem, more⟩⟩
            rw [none, all.length_eq] at large
            exact Or.inr large
      · have same : SameMasks (Info.fixed layout)
            { Info.fixed layout with pageStarts := starts, pageExtras := extras } := ⟨rfl, rfl⟩
        obtain ⟨rebased, load, restored⟩ := rebaseEntries_written lawful same encodable all
          (List.prefix_refl _) [] (by simpa using short)
        refine Or.inl ⟨⟨written, _, rebased, ?_, load, restored⟩, marks⟩
        simp only [writeSlideInfo, run, ok_bind, if_neg large]
  | overflow needs after =>
      have marks : MarksExtras version layout pages :=
        after.imp_right fun either => either.resolve_left fun some => some rfl
      exact Or.inr (Or.inl ⟨⟨_, fails _ run, rfl⟩, marks, Or.inl needs⟩)
  | emptyBack flagged none before =>
      exact Or.inr (Or.inr ⟨fails _ run, not_or.mpr ⟨flagged, before⟩⟩)

theorem starts_fit (layout : ArchLayout) (sizeInUse : ℕ) (bytes : 2 ≤ layout.slideInfoBytesPerPage) :
    align (sizeofSlideInfo + dataPageCount sizeInUse * 2) layout.sharedRegionAlignP2 ≤
      slideInfoBufferSizeAllocated layout sizeInUse := by
  rw [slideInfoBufferSizeAllocated, align, align]
  refine Nat.mul_le_mul_right _ (Nat.div_le_div_right ?_)
  have count : dataPageCount sizeInUse ≤ sizeInUse / 4096 + 1 := by
    rw [dataPageCount]
    omega
  have room : sizeInUse / 4096 * 2 ≤ sizeInUse / 4096 * layout.slideInfoBytesPerPage :=
    Nat.mul_le_mul_left _ bytes
  omega

end ObjcDyld.SlideInfo
