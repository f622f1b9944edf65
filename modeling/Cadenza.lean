import Cadenza.Chord.Voicing
import Cadenza.CommandLine
import Cadenza.Console
import Cadenza.Demo
import Cadenza.Main
import Cadenza.Playback.Stop
import Cadenza.Playback.Thread
import Cadenza.Proofs.Arrangement
import Cadenza.Proofs.Chord.Reading
import Cadenza.Proofs.Chord.Stacking
import Cadenza.Proofs.Midi.Decoding
import Cadenza.Proofs.Parts.Arrivals
import Cadenza.Proofs.Phrase.Recurrence
import Cadenza.Proofs.Phrase.Striking
import Cadenza.Proofs.Playback.Course
import Cadenza.Proofs.Playback.Misfits
import Cadenza.Proofs.Playback.Passes
import Cadenza.Proofs.Playback.Sending
import Cadenza.Proofs.Playback.Silence
import Cadenza.Proofs.Playback.Stopping
import Cadenza.Proofs.Playback.Timing
import Cadenza.Proofs.Score.Chronology
import Cadenza.Proofs.Score.Delaying
import Cadenza.Proofs.Score.Frames
import Cadenza.Proofs.Score.Linking
import Cadenza.Proofs.Score.Policies
import Cadenza.Proofs.Score.Stretching
import Cadenza.Proofs.Score.Transposing
import Cadenza.Proofs.Score.Ways
import Cadenza.Proofs.Studio.Compiling
import Cadenza.Proofs.Studio.Registered
import Cadenza.Proofs.Timeline.Counting
import Cadenza.Proofs.Timeline.Drifting
import Cadenza.Proofs.Timeline.Quantizing
import Cadenza.Proofs.Timeline.Workers
import Cadenza.Settings
import Cadenza.Timeline.Workers
import Cadenza.Toml.Document
