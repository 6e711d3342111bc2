import Mathlib

/-!
# `config.hpp`

The constants that several parts of the chain use.
-/

namespace Calibrd.Chain

/-- A name is the number that it is stored as. -/
abbrev AccountName := ℕ

abbrev PublicKey := ℕ

def STEEMIT_GENESIS_TIME : ℕ := 1458835200

def STEEMIT_BLOCK_INTERVAL : ℕ := 3

def STEEMIT_BLOCKS_PER_DAY : ℕ := 24 * 60 * 60 / STEEMIT_BLOCK_INTERVAL

def STEEMIT_START_MINER_VOTING_BLOCK : ℕ := STEEMIT_BLOCKS_PER_DAY * 30

def STEEMIT_MAX_WITNESSES : ℕ := 21

def STEEMIT_NUM_HARDFORKS : ℕ := 19

def STEEMIT_MAX_UNDO_HISTORY : ℕ := 10000

def STEEMIT_MIN_BLOCK_SIZE_LIMIT : ℕ := 1024 * 64

def STEEMIT_100_PERCENT : ℕ := 10000

def STEEMIT_CASHOUT_WINDOW_SECONDS : ℕ := 60 * 60 * 24 * 7

def STEEMIT_CREATE_ACCOUNT_WITH_STEEM_MODIFIER : ℤ := 30

def STEEMIT_CREATE_ACCOUNT_DELEGATION_RATIO : ℤ := 5

/-- `time_point_sec::maximum()`. -/
def MAXIMUM_TIME : ℕ := 2 ^ 32 - 1

/-- Where the time of the head block is a natural number, it stays below this, in the year 2106: no
period of `config.hpp` is longer than 30 days, so none leads out of a `time_point_sec`. -/
def TIME_LIMIT : ℕ := 2 ^ 32 - 60 * 60 * 24 * 30

theorem add_period_lt {time period : ℕ} (htime : time < TIME_LIMIT)
    (hperiod : period ≤ 60 * 60 * 24 * 30) : time + period < 2 ^ 32 := by
  unfold TIME_LIMIT at htime
  omega

end Calibrd.Chain
