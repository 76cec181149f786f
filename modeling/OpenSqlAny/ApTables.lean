import OpenSqlAny.ApOutcomes

namespace OpenSqlAny.ApTables

open Library.HashEntries ApOrders ApElections ApOutcomes

def Sole (votes : List UInt8) (v : UInt8) : Prop := ∀ w, Leads votes w ↔ w = v

def SameLead (votes votes' : List UInt8) : Prop := ∀ w, Leads votes w ↔ Leads votes' w

/-- How many blocks have votes of the first kind and none of the second. -/
def silenced (before after : Nat → List UInt8) (blocks : Nat) : Nat :=
  (List.range blocks).countP (fun bi => before bi ≠ [] ∧ after bi = [])

/-- The ways in which two elections can return the same tables: where blocks get their first or lose
their last votes, the fallback must give them what their votes gave them. -/
inductive SameTables (before after : Nat → List UInt8) : Prop
  | leaders (same : ∀ bi, SameLead (before bi) (after bi))
  | fallback (v : UInt8) (before_zero : Sole (before 0) v) (after_zero : Sole (after 0) v)
      (rest : ∀ bi, SameLead (before bi) (after bi) ∨
        after bi = [] ∧ Sole (before bi) v ∨ before bi = [] ∧ Sole (after bi) v)
  | unanimous (v : UInt8) (before_only : ∀ bi w, Leads (before bi) w → w = v)
      (after_only : ∀ bi w, Leads (after bi) w → w = v)
  | single (bi bj : Nat) (before_only : ∀ bk, before bk ≠ [] → bk = bi) (after_only : ∀ bk, after bk ≠ [] → bk = bj)
      (same : SameLead (before bi) (after bj))

section Leaders

variable {votes votes' : List UInt8} {v : UInt8}

theorem ne_nil_iff : votes ≠ [] ↔ ∃ v, Leads votes v := by
  constructor
  · exact exists_leads
  · rintro ⟨v, hlead⟩
    exact List.ne_nil_of_mem hlead.1

theorem SameLead.symm (h : SameLead votes votes') : SameLead votes' votes := fun w => (h w).symm

theorem SameLead.nil_iff (h : SameLead votes votes') : votes = [] ↔ votes' = [] := by
  rw [← not_iff_not]
  exact ne_nil_iff.trans ((exists_congr h).trans ne_nil_iff.symm)

theorem sameLead_of_perm (h : votes.Perm votes') : SameLead votes votes' := by
  intro w
  rw [Leads, Leads, h.mem_iff]
  simp only [h.count_eq]

theorem sole_of_only (hvotes : votes ≠ []) (honly : ∀ w, Leads votes w → w = v) : Sole votes v := by
  obtain ⟨u, hu⟩ := exists_leads hvotes
  obtain rfl := honly u hu
  intro w
  exact ⟨honly w, fun h => h ▸ hu⟩

end Leaders

section Counts

variable {before after : Nat → List UInt8} {blocks bi bj : Nat}

theorem votingBlocks_eq (before after : Nat → List UInt8) (blocks : Nat) : votingBlocks before blocks =
    (List.range blocks).countP (fun bi => before bi ≠ [] ∧ after bi ≠ []) + silenced before after blocks := by
  rw [votingBlocks, ← List.countP_eq_length_filter, silenced]
  induction List.range blocks with
  | nil => rfl
  | cons bi bis ih =>
      rw [List.countP_cons, List.countP_cons, List.countP_cons, ih]
      by_cases hbefore : before bi = []
      · simp [hbefore]
      · by_cases hafter : after bi = []
        · simp [hbefore, hafter, Nat.add_assoc]
        · simp [hbefore, hafter, Nat.add_right_comm]

theorem votingBlocks_eq_iff : votingBlocks before blocks = votingBlocks after blocks ↔
    silenced before after blocks = silenced after before blocks := by
  have hboth : (List.range blocks).countP (fun bi => after bi ≠ [] ∧ before bi ≠ []) =
      (List.range blocks).countP (fun bi => before bi ≠ [] ∧ after bi ≠ []) := by
    apply List.countP_congr
    intro bi _
    simp only [decide_eq_true_eq]
    exact And.comm
  rw [votingBlocks_eq before after, votingBlocks_eq after before, hboth, Nat.add_left_cancel_iff]

theorem votingBlocks_congr (hsame : ∀ bi, SameLead (before bi) (after bi)) :
    votingBlocks before blocks = votingBlocks after blocks := by
  rw [votingBlocks, votingBlocks]
  congr 1
  apply List.filter_congr
  intro bi _
  rw [decide_eq_decide]
  exact not_congr (hsame bi).nil_iff

theorem silenced_pos_iff (hfar : ∀ bi, blocks ≤ bi → before bi = []) :
    0 < silenced before after blocks ↔ ∃ bi, before bi ≠ [] ∧ after bi = [] := by
  rw [silenced, List.countP_pos_iff]
  simp only [List.mem_range, decide_eq_true_eq]
  constructor
  · rintro ⟨bi, -, h⟩
    exact ⟨bi, h⟩
  · rintro ⟨bi, h⟩
    refine ⟨bi, ?_, h⟩
    by_contra hbi
    exact h.1 (hfar bi (Nat.not_lt.mp hbi))

theorem votingBlocks_eq_card (ballots : Nat → List UInt8) (blocks : Nat) :
    votingBlocks ballots blocks = ((Finset.range blocks).filter (fun bi => ballots bi ≠ [])).card := rfl

theorem mem_voting (hfar : ∀ bi, blocks ≤ bi → before bi = []) :
    bi ∈ (Finset.range blocks).filter (fun bi => before bi ≠ []) ↔ before bi ≠ [] := by
  rw [Finset.mem_filter, Finset.mem_range, and_iff_right_iff_imp]
  intro hvotes
  by_contra hbi
  exact hvotes (hfar bi (Nat.not_lt.mp hbi))

theorem votingBlocks_eq_zero_iff (hfar : ∀ bi, blocks ≤ bi → before bi = []) :
    votingBlocks before blocks = 0 ↔ ∀ bi, before bi = [] := by
  rw [votingBlocks_eq_card, Finset.card_eq_zero, Finset.eq_empty_iff_forall_notMem]
  simp only [mem_voting hfar, not_not]

theorem only_of_only (hbefore : ∀ bi, blocks ≤ bi → before bi = []) (hafter : ∀ bi, blocks ≤ bi → after bi = [])
    (hcount : votingBlocks before blocks = votingBlocks after blocks) (honly : ∀ bk, before bk ≠ [] → bk = bi)
    (hvotes : after bj ≠ []) : ∀ bk, after bk ≠ [] → bk = bj := by
  rw [votingBlocks_eq_card, votingBlocks_eq_card] at hcount
  have hone : ((Finset.range blocks).filter (fun bi => before bi ≠ [])).card ≤ 1 := by
    rw [Finset.card_le_one_iff]
    intro bk bl hbk hbl
    rw [mem_voting hbefore] at hbk hbl
    rw [honly bk hbk, honly bl hbl]
  rw [hcount, Finset.card_le_one_iff] at hone
  intro bk hbk
  exact hone ((mem_voting hafter).mpr hbk) ((mem_voting hafter).mpr hvotes)

end Counts

section Tables

variable {ballots before after : Nat → List UInt8} {table pick : Nat → UInt8} {bi bj bk : Nat} {v w : UInt8}

theorem Elected.congr (hsame : ∀ bi, SameLead (before bi) (after bi)) :
    Elected before table ↔ Elected after table := by
  have hnil (bi : Nat) : before bi = [] ↔ after bi = [] := (hsame bi).nil_iff
  have hlead (bi : Nat) (v : UInt8) : Leads (before bi) v ↔ Leads (after bi) v := hsame bi v
  constructor
  · intro h
    refine ⟨?_, ?_⟩
    · simpa only [ne_eq, hnil, hlead] using h.leads
    · simpa only [ne_eq, hnil] using h.falls
  · intro h
    refine ⟨?_, ?_⟩
    · simpa only [ne_eq, ← hnil, ← hlead] using h.leads
    · simpa only [ne_eq, ← hnil] using h.falls

theorem Elected.fixed (h : Elected ballots table) (hbi : ballots bi = []) (hbj : ballots bj = []) :
    table bi = table bj := by
  obtain ⟨bv0, hrest, -⟩ := h.falls
  rw [hrest bi hbi, hrest bj hbj]

theorem exists_picks (ballots : Nat → List UInt8) :
    ∃ pick : Nat → UInt8, ∀ bi, ballots bi ≠ [] → Leads (ballots bi) (pick bi) := by
  have hleads : ∀ bi, ∃ v, ballots bi ≠ [] → Leads (ballots bi) v := by
    intro bi
    by_cases hnil : ballots bi = []
    · exact ⟨0, fun h => absurd hnil h⟩
    · obtain ⟨v, hv⟩ := exists_leads hnil
      exact ⟨v, fun _ => hv⟩
  choose pick hpick using hleads
  exact ⟨pick, hpick⟩

theorem picks_update (hpick : ∀ bk, ballots bk ≠ [] → Leads (ballots bk) (pick bk)) (hv : Leads (ballots bi) v) :
    ∀ bk, ballots bk ≠ [] → Leads (ballots bk) (Function.update pick bi v bk) := by
  rw [Function.forall_update_iff pick fun bk w => ballots bk ≠ [] → Leads (ballots bk) w]
  exact ⟨fun _ => hv, fun bk _ => hpick bk⟩

theorem elected_picks (hpick : ∀ bk, ballots bk ≠ [] → Leads (ballots bk) (pick bk)) (hvotes : ballots bj ≠ [])
    (hfirst : ballots 0 ≠ [] → bj = 0) :
    Elected ballots (fun bk => if ballots bk = [] then pick bj else pick bk) where
  leads bk hbk := by
    rw [if_neg hbk]
    exact hpick bk hbk
  falls := by
    refine ⟨pick bj, fun bk hbk => if_pos hbk, .inl ⟨bj, hvotes, hfirst, if_neg hvotes⟩⟩

theorem exists_first (hvotes : ballots bi ≠ []) : ∃ bj, ballots bj ≠ [] ∧ (ballots 0 ≠ [] → bj = 0) := by
  by_cases hzero : ballots 0 = []
  · exact ⟨bi, hvotes, fun h => absurd hzero h⟩
  · exact ⟨0, hzero, fun _ => rfl⟩

theorem exists_table (hv : Leads (ballots bi) v) : ∃ table, Elected ballots table ∧ table bi = v := by
  have hvotes := List.ne_nil_of_mem hv.1
  obtain ⟨pick, hpick⟩ := exists_picks ballots
  obtain ⟨bj, hbj, hfirst⟩ := exists_first hvotes
  refine ⟨_, elected_picks (picks_update hpick hv) hbj hfirst, ?_⟩
  rw [if_neg hvotes, Function.update_self]

theorem exists_table_pair (hv : Leads (ballots bi) v) (hw : Leads (ballots bj) w) (hdiff : bi ≠ bj)
    (hfirst : ballots 0 ≠ [] → bj = 0) :
    ∃ table, Elected ballots table ∧ table bi = v ∧ ∀ bk, ballots bk = [] → table bk = w := by
  have hbi := List.ne_nil_of_mem hv.1
  have hbj := List.ne_nil_of_mem hw.1
  obtain ⟨pick, hpick⟩ := exists_picks ballots
  refine ⟨_, elected_picks (picks_update (picks_update hpick hv) hw) hbj hfirst, ?_, ?_⟩
  · rw [if_neg hbi, Function.update_of_ne hdiff, Function.update_self]
  · intro bk hbk
    rw [if_pos hbk, Function.update_self]

theorem elected_single (hvotes : ballots bi ≠ []) (honly : ∀ bk, ballots bk ≠ [] → bk = bi) :
    Elected ballots table ↔ ∃ w, Leads (ballots bi) w ∧ ∀ bk, table bk = w := by
  constructor
  · intro h
    refine ⟨table bi, h.leads bi hvotes, ?_⟩
    obtain ⟨bv0, hrest, ⟨bj, hbj, -, rfl⟩ | ⟨hnone, -⟩⟩ := h.falls
    · obtain rfl := honly bj hbj
      intro bk
      by_cases hbk : ballots bk = []
      · exact hrest bk hbk
      · rw [honly bk hbk]
    · exact absurd (hnone bi) hvotes
  · rintro ⟨w, hw, htable⟩
    refine ⟨?_, w, fun bk _ => htable bk, .inl ⟨bi, hvotes, ?_, htable bi⟩⟩
    · intro bk hbk
      rw [honly bk hbk, htable]
      exact hw
    · intro hzero
      exact (honly 0 hzero).symm

theorem elected_unanimous (hvotes : ballots bi ≠ []) (honly : ∀ bk w, Leads (ballots bk) w → w = v) :
    Elected ballots table ↔ ∀ bk, table bk = v := by
  constructor
  · intro h bk
    by_cases hbk : ballots bk = []
    · obtain ⟨bv0, hrest, ⟨bj, hbj, -, rfl⟩ | ⟨hnone, -⟩⟩ := h.falls
      · rw [hrest bk hbk, honly bj _ (h.leads bj hbj)]
      · exact absurd (hnone bi) hvotes
    · exact honly bk _ (h.leads bk hbk)
  · intro htable
    obtain ⟨bj, hbj, hfirst⟩ := exists_first hvotes
    refine ⟨?_, v, fun bk _ => htable bk, .inl ⟨bj, hbj, hfirst, htable bj⟩⟩
    intro bk hbk
    rw [htable bk]
    exact (sole_of_only hbk (honly bk) v).mpr rfl

theorem sole_of_silenced (hsame : ∀ table, Elected before table → Elected after table) {far : Nat}
    (hfar : before far = [] ∧ after far = []) (hbi : before bi ≠ []) (hnil : after bi = []) (hdiff : bi ≠ bj)
    (hfirst : before 0 ≠ [] → bj = 0) (hw : Leads (before bj) w) : Sole (before bi) w ∧ Sole (before bj) w := by
  have hagree : ∀ v u, Leads (before bi) v → Leads (before bj) u → v = u := by
    intro v u hv hu
    obtain ⟨table, helected, hat, hrest⟩ := exists_table_pair hv hu hdiff hfirst
    rw [← hat, ← hrest far hfar.1]
    exact Elected.fixed (hsame table helected) hnil hfar.2
  obtain ⟨v, hv⟩ := exists_leads hbi
  obtain rfl := hagree v w hv hw
  constructor
  · exact sole_of_only hbi fun u hu => hagree u v hu hw
  · exact sole_of_only (List.ne_nil_of_mem hw.1) fun u hu => (hagree v u hv hu).symm

theorem leads_of_tables (hsame : ∀ table, Elected before table → Elected after table) (hafter : after bi ≠ [])
    (hv : Leads (before bi) v) : Leads (after bi) v := by
  obtain ⟨table, helected, rfl⟩ := exists_table hv
  exact (hsame table helected).leads bi hafter

end Tables

section Comparisons

variable {before after : Nat → List UInt8} {blocks : Nat} {table : Nat → UInt8} {bi bj : Nat} {v : UInt8}

theorem elected_of_fallback (before_zero : Sole (before 0) v) (after_zero : Sole (after 0) v)
    (rest : ∀ bi, SameLead (before bi) (after bi) ∨
      after bi = [] ∧ Sole (before bi) v ∨ before bi = [] ∧ Sole (after bi) v)
    (h : Elected before table) : Elected after table := by
  have hbefore : before 0 ≠ [] := ne_nil_iff.mpr ⟨v, (before_zero v).mpr rfl⟩
  have hafter : after 0 ≠ [] := ne_nil_iff.mpr ⟨v, (after_zero v).mpr rfl⟩
  have hzero : table 0 = v := (before_zero _).mp (h.leads 0 hbefore)
  have hnone : ∀ bi, before bi = [] → table bi = v := by
    intro bi hbi
    obtain ⟨bv0, hrest, ⟨bj, -, hfirst, rfl⟩ | ⟨hall, -⟩⟩ := h.falls
    · rw [hrest bi hbi, hfirst hbefore, hzero]
    · exact absurd (hall 0) hbefore
  refine ⟨?_, v, ?_, .inl ⟨0, hafter, fun _ => rfl, hzero⟩⟩
  · intro bi hbi
    rcases rest bi with hsame | ⟨hnil, -⟩ | ⟨hnil, hsole⟩
    · exact (hsame _).mp (h.leads bi (mt hsame.nil_iff.mp hbi))
    · exact absurd hnil hbi
    · exact (hsole _).mpr (hnone bi hnil)
  · intro bi hbi
    rcases rest bi with hsame | ⟨-, hsole⟩ | ⟨hnil, -⟩
    · exact hnone bi (hsame.nil_iff.mpr hbi)
    · have hvotes := ne_nil_iff.mpr ⟨v, (hsole v).mpr rfl⟩
      exact (hsole _).mp (h.leads bi hvotes)
    · exact hnone bi hnil

theorem sameTables_of_moved (hbefore : ∀ bi, blocks ≤ bi → before bi = []) (hafter : ∀ bi, blocks ≤ bi → after bi = [])
    (hcount : votingBlocks before blocks = votingBlocks after blocks)
    (hsame : ∀ table, Elected before table ↔ Elected after table) (hbi : before bi ≠ []) (hbi' : after bi = [])
    (hbj : after bj ≠ []) (hzero : before 0 = []) : SameTables before after := by
  have hfar : before blocks = [] ∧ after blocks = [] := ⟨hbefore blocks le_rfl, hafter blocks le_rfl⟩
  by_cases honly : ∀ bk, before bk ≠ [] → bk = bi
  · have honly' := only_of_only hbefore hafter hcount honly hbj
    refine .single bi bj honly honly' fun w => ?_
    have hconstant := hsame fun _ => w
    rw [elected_single hbi honly, elected_single hbj honly'] at hconstant
    simpa only [forall_const, exists_eq_right'] using hconstant
  · push Not at honly
    obtain ⟨bk, hbk, hdiff⟩ := honly
    obtain ⟨v, hv⟩ := exists_leads hbi
    have honly : ∀ bl w, Leads (before bl) w → w = v := by
      intro bl w hw
      by_cases hbl : bl = bi
      · subst hbl
        obtain ⟨u, hu⟩ := exists_leads hbk
        obtain ⟨hsole, -⟩ := sole_of_silenced (fun table => (hsame table).mp) hfar hbi hbi' hdiff.symm
          (fun h => absurd hzero h) hu
        rw [(hsole v).mp hv, (hsole w).mp hw]
      · obtain ⟨hsole, -⟩ := sole_of_silenced (fun table => (hsame table).mp) hfar hbi hbi' (Ne.symm hbl)
          (fun h => absurd hzero h) hw
        exact ((hsole v).mp hv).symm
    refine .unanimous v honly ?_
    intro bl w hw
    obtain ⟨table, helected, rfl⟩ := exists_table hw
    exact (elected_unanimous hbi honly).mp ((hsame table).mpr helected) bl

theorem SameTables.symm (h : SameTables before after) : SameTables after before := by
  cases h with
  | leaders same => exact .leaders fun bi => (same bi).symm
  | fallback v before_zero after_zero rest =>
      refine .fallback v after_zero before_zero fun bi => ?_
      exact (rest bi).imp SameLead.symm Or.symm
  | unanimous v before_only after_only => exact .unanimous v after_only before_only
  | single bi bj before_only after_only same => exact .single bj bi after_only before_only same.symm

theorem elected_of_sameTables (hcount : (∀ bi, before bi = []) ↔ ∀ bi, after bi = []) (h : SameTables before after)
    (helected : Elected before table) : Elected after table := by
  by_cases hnone : ∀ bi, before bi = []
  · refine (Elected.congr fun bi => ?_).mp helected
    rw [hnone bi, hcount.mp hnone bi]
    exact fun w => Iff.rfl
  have hnone' := mt hcount.mpr hnone
  push Not at hnone hnone'
  obtain ⟨bi, hbi⟩ := hnone
  obtain ⟨bj, hbj⟩ := hnone'
  cases h with
  | leaders same => exact (Elected.congr same).mp helected
  | fallback v before_zero after_zero rest => exact elected_of_fallback before_zero after_zero rest helected
  | unanimous v before_only after_only =>
      exact (elected_unanimous hbj after_only).mpr ((elected_unanimous hbi before_only).mp helected)
  | single bk bl before_only after_only same =>
      obtain rfl := before_only bi hbi
      obtain rfl := after_only bj hbj
      obtain ⟨w, hw, htable⟩ := (elected_single hbi before_only).mp helected
      exact (elected_single hbj after_only).mpr ⟨w, (same w).mp hw, htable⟩

theorem sameTables_of_kept {far : Nat} (hfar : before far = [] ∧ after far = [])
    (hsame : ∀ table, Elected before table ↔ Elected after table) (hbi : before bi ≠ []) (hbi' : after bi = [])
    (hbj : before bj = []) (hbj' : after bj ≠ []) (hzero : before 0 ≠ []) (hzero' : after 0 ≠ []) :
    SameTables before after := by
  have hto : ∀ table, Elected before table → Elected after table := fun table => (hsame table).mp
  have hfro : ∀ table, Elected after table → Elected before table := fun table => (hsame table).mpr
  obtain ⟨v, hv⟩ := exists_leads hzero
  have hlost : ∀ bk, before bk ≠ [] → after bk = [] → Sole (before bk) v ∧ Sole (before 0) v := by
    intro bk hbk hbk'
    refine sole_of_silenced hto hfar hbk hbk' ?_ (fun _ => rfl) hv
    rintro rfl
    exact hzero' hbk'
  have hgot : ∀ bk, before bk = [] → after bk ≠ [] → Sole (after bk) v ∧ Sole (after 0) v := by
    intro bk hbk hbk'
    refine sole_of_silenced hfro hfar.symm hbk' hbk ?_ (fun _ => rfl) (leads_of_tables hto hzero' hv)
    rintro rfl
    exact hzero hbk
  refine .fallback v (hlost bi hbi hbi').2 (hgot bj hbj hbj').2 fun bk => ?_
  by_cases hbk : before bk = []
  · by_cases hbk' : after bk = []
    · left
      rw [hbk, hbk']
      exact fun w => Iff.rfl
    · exact .inr (.inr ⟨hbk, (hgot bk hbk hbk').1⟩)
  · by_cases hbk' : after bk = []
    · exact .inr (.inl ⟨hbk', (hlost bk hbk hbk').1⟩)
    · exact .inl fun w => ⟨leads_of_tables hto hbk', leads_of_tables hfro hbk⟩

theorem sameTables_of_still (hsame : ∀ table, Elected before table ↔ Elected after table)
    (hlost : ∀ bi, before bi ≠ [] → after bi ≠ []) (hgot : ∀ bi, after bi ≠ [] → before bi ≠ []) :
    SameTables before after := by
  refine .leaders fun bi w => ?_
  constructor
  · intro hw
    exact leads_of_tables (fun table => (hsame table).mp) (hlost bi (List.ne_nil_of_mem hw.1)) hw
  · intro hw
    exact leads_of_tables (fun table => (hsame table).mpr) (hgot bi (List.ne_nil_of_mem hw.1)) hw

/-- Two elections of as many blocks return the same tables in no other way. -/
theorem sameTables_iff (hbefore : ∀ bi, blocks ≤ bi → before bi = []) (hafter : ∀ bi, blocks ≤ bi → after bi = [])
    (hcount : silenced before after blocks = silenced after before blocks) :
    (∀ table, Elected before table ↔ Elected after table) ↔ SameTables before after := by
  have hvoting := votingBlocks_eq_iff.mpr hcount
  have hfar : before blocks = [] ∧ after blocks = [] := ⟨hbefore blocks le_rfl, hafter blocks le_rfl⟩
  constructor
  · intro hsame
    by_cases hsilenced : ∃ bi, before bi ≠ [] ∧ after bi = []
    case neg =>
      have hvoiced : ¬∃ bi, after bi ≠ [] ∧ before bi = [] := by
        rwa [← silenced_pos_iff hafter, ← hcount, silenced_pos_iff hbefore]
      push Not at hsilenced hvoiced
      exact sameTables_of_still hsame hsilenced hvoiced
    have hpos := (silenced_pos_iff hbefore).mpr hsilenced
    rw [hcount] at hpos
    obtain ⟨bi, hbi, hbi'⟩ := hsilenced
    obtain ⟨bj, hbj', hbj⟩ := (silenced_pos_iff hafter).mp hpos
    by_cases hzero : before 0 = []
    · exact sameTables_of_moved hbefore hafter hvoting hsame hbi hbi' hbj' hzero
    by_cases hzero' : after 0 = []
    · have hback := fun table => (hsame table).symm
      exact (sameTables_of_moved hafter hbefore hvoting.symm hback hbj' hbj hbi hzero').symm
    exact sameTables_of_kept hfar hsame hbi hbi' hbj hbj' hzero hzero'
  · intro h table
    have hnone : (∀ bi, before bi = []) ↔ ∀ bi, after bi = [] := by
      rw [← votingBlocks_eq_zero_iff hbefore, hvoting, votingBlocks_eq_zero_iff hafter]
    exact ⟨elected_of_sameTables hnone h, elected_of_sameTables hnone.symm h.symm⟩

end Comparisons

end OpenSqlAny.ApTables
