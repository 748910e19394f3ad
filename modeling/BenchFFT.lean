import BenchFFT.Verify.Equiv.Acmp
import BenchFFT.Verify.Tests
import BenchFFT.Verify.Equiv.Tests
import BenchFFT.Verify.Equiv.RealTests
import BenchFFT.Problem.Alloc
import BenchFFT.Problem.Equiv.Alloc
import BenchFFT.Problem.Equiv.Copy1d
import BenchFFT.Mp.Equiv.Cexp
import BenchFFT.Mp.Equiv.Calls
import BenchFFT.Mp.Equiv.Faithful
import BenchFFT.Report.Equiv.Mkstat
import BenchFFT.Mp.Equiv.Fromrealv
import BenchFFT.Sizes.Equiv.Essl
import BenchFFT.Report.Equiv.Speed
import BenchFFT.Report.Equiv.Timer
import BenchFFT.Benchees.Equiv.Ooura3d
import BenchFFT.Benchees.Equiv.Green
import BenchFFT.Benchees.Equiv.Nr
import BenchFFT.Benchees.Equiv.Vdsp
import BenchFFT.Benchees.Equiv.Ooura2d
import BenchFFT.Benchees.Equiv.Vbigdsp
import BenchFFT.Util.Equiv.Malloc
import BenchFFT.Scripts.Equiv.GracePlot
import BenchFFT.Verify.Equiv.Accuracy
import BenchFFT.Verify.Equiv.Effects
import BenchFFT.Verify.Equiv.Harness
import BenchFFT.Problem.Equiv.Io
import BenchFFT.Problem.Equiv.CopyReal
import BenchFFT.Benchees.Equiv.Fftw3
import BenchFFT.Mirror
import BenchFFT.Options.Equiv.BenchMain
import BenchFFT.Options.Equiv.Usage
import BenchFFT.Benchees.Equiv.Fftpack
import BenchFFT.Benchees.Equiv.Sorensen
import BenchFFT.Benchees.Equiv.Glassman
import BenchFFT.Report.Equiv.Rounds
